import ShirleysOS.Exfat.Volume

/-!
# Changing an exFAT volume

What the driver's operations are made of: writing bytes and streams, the allocation bitmap,
growing and shrinking the clusters of a stream, and placing, updating and retiring directory
entry sets. Source: the low-level writes of `kernel/fs/exfat.cpp`.
-/

namespace ShirleysOS.Exfat

open Lib Storage

variable (g : Volume)

/-! ## Bytes and streams -/

/-- The loop of `write_bytes`: `done` bytes are written. Less than a block is read, changed and
written back whole. -/
def writeBytesLoop (offset length : ℕ) (data : Bytes) : ℕ → ℕ → Driver Result
  | 0, done => pure ⟨done, .none⟩
  | fuel + 1, done =>
    if done < length then
      let block := g.device.blockSize
      let index := (offset + done) / block
      let within := (offset + done) % block
      let remaining := length - done
      if within = 0 ∧ block ≤ remaining then do
        let count := remaining / block
        match ← writeBlocks index count (data.slice done) with
        | some e => pure ⟨done, e⟩
        | none => writeBytesLoop offset length data fuel (done + count * block)
      else do
        match ← readBlocks index 1 with
        | .error e => pure ⟨done, e⟩
        | .ok bounce =>
          let take := min (block - within) remaining
          match ← writeBlocks index 1 (bounce.splice within take (data.slice done)) with
          | some e => pure ⟨done, e⟩
          | none => writeBytesLoop offset length data fuel (done + take)
    else pure ⟨done, .none⟩

/-- `write_bytes`. -/
def writeBytes (offset : ℕ) (data : Bytes) (length : ℕ) : Driver Result :=
  writeBytesLoop g offset length data length 0

/-- The loop of `write_stream`. -/
def writeStreamLoop (stream : Stream) (offset length : ℕ) (data : Bytes) : ℕ → ℕ → Driver Result
  | 0, done => pure ⟨done, .none⟩
  | fuel + 1, done =>
    if done < length then do
      let within := (offset + done) % g.clusterBytes
      let take := min (g.clusterBytes - within) (length - done)
      match ← clusterAt g stream ((offset + done) / g.clusterBytes) with
      | none => pure ⟨done, .deviceError⟩
      | some cluster =>
        let result ← writeBytes g (g.position cluster + within) (data.slice done) take
        if result.ok then writeStreamLoop stream offset length data fuel (done + take)
        else pure ⟨done, result.error⟩
    else pure ⟨done, .none⟩

/-- `write_stream`: only inside the stream's length. -/
def writeStream (stream : Stream) (offset : ℕ) (data : Bytes) (length : ℕ) : Driver Result :=
  if stream.length < offset ∨ stream.length - offset < length then pure ⟨0, .outOfRange⟩
  else writeStreamLoop g stream offset length data length 0

/-- The loop of `zero_stream`: 512 bytes at a time. -/
def zeroStreamLoop (stream : Stream) : ℕ → ℕ → ℕ → Driver Error
  | 0, _, _ => pure .none
  | fuel + 1, offset, length =>
    if length ≠ 0 then do
      let take := min length 512
      let result ← writeStream g stream offset (fun _ => 0) take
      if result.ok then zeroStreamLoop stream fuel (offset + take) (length - take)
      else pure result.error
    else pure .none

/-- `zero_stream`. -/
def zeroStream (stream : Stream) (offset length : ℕ) : Driver Error :=
  zeroStreamLoop g stream length offset length

/-! ## The FAT and the bitmap -/

/-- `fat_set`. -/
def fatSet (cluster value : ℕ) : Driver Bool :=
  if cluster < firstDataCluster ∨ g.clusterCount + 1 < cluster then pure false
  else do
    let result ← writeBytes g (g.fatOffset + cluster * 4) (put32 (fun _ => 0) 0 value) 4
    pure result.ok

/-- `bitmap_test`. -/
def bitmapTest (cluster : ℕ) : Driver (Option Bool) := do
  let index := cluster - firstDataCluster
  let (read, byte) ← readStream g g.bitmap (index / 8) 1
  if read.transferred ≠ 1 then pure none else pure (some ((byte 0).toNat.testBit (index % 8)))

/-- The byte with one bit changed. -/
def setBit (byte : UInt8) (bit : ℕ) (used : Bool) : UInt8 :=
  let mask : UInt8 := UInt8.ofNat (2 ^ bit)
  if used then byte ||| mask else byte &&& ~~~mask

/-- `bitmap_set`. -/
def bitmapSet (cluster : ℕ) (used : Bool) : Driver Bool :=
  if cluster < firstDataCluster ∨ g.clusterCount + 1 < cluster then pure false
  else do
    let index := cluster - firstDataCluster
    let (read, byte) ← readStream g g.bitmap (index / 8) 1
    if read.transferred ≠ 1 then pure false
    else do
      let result ←
        writeStream g g.bitmap (index / 8) (fun _ => setBit (byte 0) (index % 8) used) 1
      pure result.ok

/-! ## Allocating clusters -/

/-- The first clear bit of a byte of the bitmap that stands for a cluster of the volume. -/
def freeInByte (byte : UInt8) (base : ℕ) : Option ℕ :=
  (List.range 8).find? fun bit =>
    decide (base + bit < g.clusterCount) && !byte.toNat.testBit bit

/-- The first clear bit of a part of the bitmap. -/
def freeInChunk (chunk : Bytes) (byteIndex take : ℕ) : Option ℕ :=
  (List.range take).findSome? fun i =>
    if chunk i = 0xFF then none
    else (freeInByte g (chunk i) ((byteIndex + i) * 8)).map ((byteIndex + i) * 8 + ·)

/-- The search of `allocate_cluster`: one lap over the bitmap, 64 bytes at a time. -/
def searchLoop (start totalBytes : ℕ) : ℕ → ℕ → Driver (Except Error (Option ℕ))
  | 0, _ => pure (.ok none)
  | fuel + 1, scanned =>
    if scanned < totalBytes + 64 then do
      let byteIndex := (start / 8 + scanned) % totalBytes
      let take := min (totalBytes - byteIndex) 64
      let (read, chunk) ← readStream g g.bitmap byteIndex take
      if read.transferred ≠ take then pure (.error .deviceError)
      else
        match freeInChunk g chunk byteIndex take with
        | some index => pure (.ok (some (index + firstDataCluster)))
        | none => searchLoop start totalBytes fuel (scanned + take)
    else pure (.ok none)

/-- The search from where the last one stopped. -/
def searchCluster : Driver (Except Error (Option ℕ)) := do
  let hint := (← get).allocationHint
  let start :=
    if firstDataCluster ≤ hint ∧ hint ≤ g.clusterCount + 1 then hint - firstDataCluster else 0
  let totalBytes := (g.clusterCount + 7) / 8
  searchLoop g (start - start % 8) totalBytes (totalBytes + 64) 0

/-- The cluster that `allocate_cluster` takes: `prefer` if it is free. -/
def chooseCluster (prefer : ℕ) : Driver (Except Error (Option ℕ)) :=
  if firstDataCluster ≤ prefer ∧ prefer ≤ g.clusterCount + 1 then do
    match ← bitmapTest g prefer with
    | some false => pure (.ok (some prefer))
    | _ => searchCluster g
  else searchCluster g

/-- `allocate_cluster`. -/
def allocateCluster (prefer : ℕ) : Driver (Except Error ℕ) := do
  match ← chooseCluster g prefer with
  | .error e => pure (.error e)
  | .ok none => pure (.error .noSpace)
  | .ok (some cluster) =>
    if ← bitmapSet g cluster true then
      modify fun s =>
        { s with
          allocationHint :=
            if g.clusterCount + 1 < cluster + 1 then firstDataCluster else cluster + 1 }
      pure (.ok cluster)
    else pure (.error .deviceError)

/-- `cursor_ = {}`. -/
def resetCursor : Driver Unit := modify fun s => { s with cursor := Cursor.none }

/-! ## Growing and shrinking streams -/

/-- The cluster that a chained stream has after its number `index`, read before that one's FAT
entry is cleared. -/
def followingCluster (stream : Stream) (current index cluster : ℕ) : Driver (Option ℕ) :=
  if stream.contiguous = false ∧ index + 1 < current then fatNext g cluster else pure (some 0)

/-- The loop of `release_clusters`: `n` more clusters from `cluster` on, which is the stream's
number `index`. -/
def releaseLoop (stream : Stream) (current : ℕ) : ℕ → ℕ → ℕ → Driver Bool
  | 0, _, _ => pure true
  | n + 1, index, cluster => do
    match ← followingCluster g stream current index cluster with
    | none => pure false
    | some next =>
      if ← bitmapSet g cluster false then
        if stream.contiguous then releaseLoop stream current n (index + 1) (cluster + 1)
        else do
          let _ ← fatSet g cluster 0
          releaseLoop stream current n (index + 1) next
      else pure false

/-- `release_clusters`: only the first `keep` of `current` clusters stay. -/
def releaseClusters (stream : Stream) (keep current : ℕ) : Driver (Error × Stream) := do
  resetCursor
  if current ≤ keep then pure (.none, stream)
  else
    match ← clusterAt g stream keep with
    | none => pure (.deviceError, stream)
    | some cluster => do
      resetCursor
      if ← releaseLoop g stream current (current - keep) keep cluster then
        if keep = 0 then do
          resetCursor
          pure (.none, { stream with firstCluster := 0, contiguous := false })
        else if stream.contiguous then do
          resetCursor
          pure (.none, stream)
        else
          match ← clusterAt g stream (keep - 1) with
          | none => pure (.deviceError, stream)
          | some tail =>
            if ← fatSet g tail endOfChain then do
              resetCursor
              pure (.none, stream)
            else pure (.deviceError, stream)
      else pure (.deviceError, stream)

/-- The contiguous clusters of a stream go into the FAT: `n` links from `cluster` on. -/
def chainLoop : ℕ → ℕ → Driver Bool
  | 0, _ => pure true
  | n + 1, cluster => do
    if ← fatSet g cluster (cluster + 1) then chainLoop n (cluster + 1) else pure false

/-- A stream of `count` clusters before `cluster` is added to it: the first one starts it, and one
that does not come right after `last` makes it a chained stream. -/
def openStream (stream : Stream) (count last cluster : ℕ) : Driver (Bool × Stream) :=
  if count = 0 then pure (true, { stream with firstCluster := cluster, contiguous := true })
  else if stream.contiguous = true ∧ cluster ≠ last + 1 then do
    if ← chainLoop g (count - 1) stream.firstCluster then
      resetCursor
      pure (true, { stream with contiguous := false })
    else pure (false, stream)
  else pure (true, stream)

/-- The FAT entries of a cluster that is added to a chained stream. -/
def linkCluster (count last cluster : ℕ) : Driver Bool :=
  if 0 < count then do
    if ← fatSet g last cluster then fatSet g cluster endOfChain else pure false
  else fatSet g cluster endOfChain

/-- The step of `resize` that adds `cluster` after the stream's `count` clusters, of which `last`
is the last. -/
def appendCluster (stream : Stream) (count last cluster : ℕ) : Driver (Bool × Stream) := do
  match ← openStream g stream count last cluster with
  | (false, stream) => pure (false, stream)
  | (true, stream) =>
    if stream.contiguous then pure (true, stream)
    else do
      let linked ← linkCluster g count last cluster
      pure (linked, stream)

/-- The failures of `resize`: the stream goes back to its `current` clusters. -/
def undoResize (stream : Stream) (current count : ℕ) (error : Error) :
    Driver (Error × Stream) := do
  let (_, stream) ← releaseClusters g stream current count
  pure (error, stream)

/-- The loop of `resize`: `n` more clusters. -/
def growLoop (current : ℕ) : ℕ → ℕ → ℕ → Stream → Driver (Error × Stream)
  | 0, _, _, stream => pure (.none, stream)
  | n + 1, count, last, stream => do
    let hint := (← get).allocationHint
    let prefer := if count = 0 then hint else last + 1
    match ← allocateCluster g prefer with
    | .error e => undoResize g stream current count e
    | .ok cluster =>
      match ← appendCluster g stream count last cluster with
      | (false, stream) => undoResize g stream current count .deviceError
      | (true, stream) => growLoop current n (count + 1) cluster stream

/-- How many clusters a stream has. -/
def Volume.clustersOf (g : Volume) (stream : Stream) : ℕ :=
  if stream.firstCluster = 0 then 0
  else (stream.length + g.clusterBytes - 1) / g.clusterBytes

/-- `resize`. The caller updates the lengths. -/
def resize (stream : Stream) (clusters : ℕ) : Driver (Error × Stream) :=
  let current := g.clustersOf stream
  if clusters ≤ current then releaseClusters g stream clusters current
  else if g.clusterCount < clusters then pure (.noSpace, stream)
  else if current = 0 then growLoop g current (clusters - current) current 0 stream
  else do
    match ← clusterAt g stream (current - 1) with
    | none => pure (.deviceError, stream)
    | some last => growLoop g current (clusters - current) current last stream

/-! ## Entry sets -/

/-- A set with a stream's fields and its own checksum. -/
def setStream (set : Bytes) (setBytes : ℕ) (stream : Stream) : Bytes :=
  let flags := secondaryFlagAllocationPossible |||
    (if stream.contiguous then secondaryFlagContiguous else 0)
  let set := set.put (entryBytes + 1) 1 flags.toNat
  let set := put64 set (entryBytes + 8) stream.validLength
  let set := put32 set (entryBytes + 20) stream.firstCluster
  let set := put64 set (entryBytes + 24) stream.length
  put16 set 2 (setChecksum set setBytes).toNat

/-- `store`: the stream of `entry` goes into its set in `parent`. -/
def store (parent : Stream) (entry : Entry) : Driver Error := do
  let offset := entry.slot * entryBytes
  let (read, set) ← readStream g parent offset entryBytes
  if read.transferred ≠ entryBytes then pure .deviceError
  else
    let secondaries := (set 1).toNat
    if set 0 ≠ typeFile ∨ secondaries < 2 ∨ maxSetEntries - 1 < secondaries then
      pure .deviceError
    else
      let setBytes := (secondaries + 1) * entryBytes
      let (read, set) ← readStream g parent offset setBytes
      if read.transferred ≠ setBytes then pure .deviceError
      else
        let result ← writeStream g parent offset (setStream set setBytes entry.stream) setBytes
        pure (if result.ok then .none else .deviceError)

/-- A set whose entries are no longer in use. -/
def retireSet (set : Bytes) : Bytes := fun i =>
  if i % entryBytes = 0 then set i &&& 0x7F else set i

/-- `erase`. -/
def erase (parent : Stream) (slot : ℕ) : Driver Error := do
  let offset := slot * entryBytes
  let (read, set) ← readStream g parent offset entryBytes
  if read.transferred ≠ entryBytes then pure .deviceError
  else
    let secondaries := (set 1).toNat
    if set 0 ≠ typeFile ∨ maxSetEntries - 1 < secondaries then pure .deviceError
    else
      let setBytes := (secondaries + 1) * entryBytes
      let (read, set) ← readStream g parent offset setBytes
      if read.transferred ≠ setBytes then pure .deviceError
      else
        let result ← writeStream g parent offset (retireSet set) setBytes
        pure (if result.ok then .none else .deviceError)

/-- The scan of `insert`: the first of `entries` consecutive entries that are not in use. The
index is a 32-bit number in the source: a directory of more than `2 ^ 37` bytes without room is
scanned there for ever, and refused here. -/
def scanLoop (parent : Stream) (entries : ℕ) : ℕ → ℕ → ℕ → Driver (Except Error (Option ℕ))
  | 0, _, _ => pure (.ok none)
  | fuel + 1, index, run =>
    if index * entryBytes < parent.length then do
      let (read, type) ← readStream g parent (index * entryBytes) 1
      if read.transferred ≠ 1 then pure (.error .deviceError)
      else
        let run := if type 0 &&& typeInUseBit = 0 then run + 1 else 0
        if run = entries then pure (.ok (some (index + 1 - entries)))
        else scanLoop parent entries fuel (index + 1) run
    else pure (.ok none)

/-- The growth of a full directory: one zeroed cluster more, and then its own length. -/
def growDirectory (place : Location) : Driver Error := do
  let length := place.entry.stream.length
  if maxDirectoryBytes < length + g.clusterBytes then pure .noSpace
  else
    let (resized, grown) ←
      resize g place.entry.stream (length / g.clusterBytes + 1)
    if resized ≠ .none then pure resized
    else
      let oldLength := grown.length
      let grown :=
        { grown with
          length := oldLength + g.clusterBytes
          validLength := oldLength + g.clusterBytes }
      let zeroed ← zeroStream g grown oldLength g.clusterBytes
      if zeroed ≠ .none then pure zeroed
      else if place.root then do
        modify fun s => { s with root := grown }
        pure .none
      else store g place.parent { place.entry with stream := grown }

/-- One attempt of `insert`; `full` is what happens when the directory has no room. -/
def insertAttempt (directory : Node) (set : Bytes) (entries : ℕ)
    (full : Location → Driver (Except Error (Stream × ℕ))) :
    Driver (Except Error (Stream × ℕ)) := do
  match ← locate g directory with
  | none => pure (.error .notFound)
  | some place =>
    if place.entry.directory = false then pure (.error .notFound)
    else
      let parent := place.entry.stream
      match ← scanLoop g parent entries (parent.length / entryBytes + 1) 0 0 with
      | .error e => pure (.error e)
      | .ok none => full place
      | .ok (some slot) =>
        if maxSlot < slot then pure (.error .noSpace)
        else
          let result ← writeStream g parent (slot * entryBytes) set (entries * entryBytes)
          pure (if result.ok then .ok (parent, slot) else .error .deviceError)

/-- `insert`: the parent's stream and the slot where the set went. The directory grows once. -/
def insert (directory : Node) (set : Bytes) (entries : ℕ) :
    Driver (Except Error (Stream × ℕ)) :=
  let set := put16 set 2 (setChecksum set (entries * entryBytes)).toNat
  insertAttempt g directory set entries fun place => do
    let grown ← growDirectory g place
    if grown ≠ .none then pure (.error grown)
    else insertAttempt g directory set entries fun _ => pure (.error .noSpace)

end ShirleysOS.Exfat
