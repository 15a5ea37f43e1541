import ShirleysOS.Exfat.Changes

/-!
# The operations of an exFAT volume

The operations through which a mounted volume is changed. Source: `Volume::write`, `truncate`,
`create`, `remove`, `rename` and `sync` of `kernel/fs/exfat.cpp`.
-/

namespace ShirleysOS.Exfat

open Lib Storage

variable (g : Volume)

/-! ## Contents -/

/-- What lies between the valid length and a write is zeroed. -/
def zeroGap (stream : Stream) (offset : ℕ) : Driver Error :=
  if stream.validLength < offset then
    zeroStream g stream stream.validLength (offset - stream.validLength)
  else pure .none

/-- The gap and the bytes of a write. -/
def fillStream (stream : Stream) (offset : ℕ) (data : Bytes) (length : ℕ) : Driver Result := do
  match ← zeroGap g stream offset with
  | .none => writeStream g stream offset data length
  | zeroed => pure ⟨0, zeroed⟩

/-- The end of `write`: the stream has its clusters. The entry set is stored last, whatever
happened before. -/
def writeContent (place : Location) (stream : Stream) (offset : ℕ) (data : Bytes)
    (length : ℕ) : Driver Result := do
  let stream := { stream with length := max stream.length (offset + length) }
  let written ← fillStream g stream offset data length
  let stream :=
    if written.ok then { stream with validLength := max stream.validLength (offset + length) }
    else stream
  let stored ← store g place.parent { place.entry with stream }
  if written.ok = false then pure ⟨0, written.error⟩
  else if stored ≠ .none then pure ⟨0, stored⟩
  else pure ⟨length, .none⟩

/-- `write`. -/
def write (file : Node) (offset : ℕ) (data : Bytes) (length : ℕ) : Driver Result :=
  if g.writable = false then pure ⟨0, .readOnly⟩
  else do
    match ← locate g file with
    | none => pure ⟨0, .invalidArgument⟩
    | some place =>
      let stream := place.entry.stream
      let heapBytes := g.clusterCount * g.clusterBytes
      if place.entry.directory then pure ⟨0, .invalidArgument⟩
      else if length = 0 then pure ⟨0, .none⟩
      else if heapBytes < offset ∨ heapBytes - offset < length then pure ⟨0, .noSpace⟩
      else
        let needed := (offset + length + g.clusterBytes - 1) / g.clusterBytes
        if g.clustersOf stream < needed then do
          let (grown, stream) ← resize g stream needed
          if grown ≠ .none then pure ⟨0, grown⟩
          else writeContent g place stream offset data length
        else writeContent g place stream offset data length

/-- `truncate`. An extension writes no zeros, as the valid length stays. -/
def truncate (file : Node) (size : ℕ) : Driver Error :=
  if g.writable = false then pure .readOnly
  else do
    match ← locate g file with
    | none => pure .invalidArgument
    | some place =>
      if place.entry.directory then pure .invalidArgument
      else if g.clusterCount * g.clusterBytes < size then pure .noSpace
      else do
        let (resized, stream) ←
          resize g place.entry.stream ((size + g.clusterBytes - 1) / g.clusterBytes)
        if resized ≠ .none then pure resized
        else
          let stream :=
            { stream with length := size, validLength := min stream.validLength size }
          store g place.parent { place.entry with stream }

/-- `sync`. -/
def sync : Driver Error :=
  if g.writable = false then pure .none
  else do
    if ← flushBlocks then pure .none else pure .deviceError

/-! ## Entry sets for new names -/

/-- The name entries of a set: `set` with the units of `name` in the entries after the first
two, and zeros around them. -/
def putName (set : Bytes) (name : List UInt16) : Bytes := fun i =>
  if i < 2 * entryBytes ∨ (2 + nameEntries name.length) * entryBytes ≤ i then set i
  else
    let within := i % entryBytes
    let unit := (i / entryBytes - 2) * nameUnitsPerEntry + (within - 2) / 2
    if within = 0 then typeName
    else if within < 2 ∨ name.length ≤ unit then 0
    else (Bytes.ofNat (name.getD unit 0).toNat) (within % 2)

/-- How many entries the set of a name has. -/
def setEntries (name : List UInt16) : ℕ := 2 + nameEntries name.length

/-- The two first entries of a set get a name's length and hash, and the others the name. -/
def setName (set : Bytes) (name : List UInt16) : Bytes :=
  let set := set.put 1 1 (setEntries name - 1)
  let set := set.put (entryBytes + 3) 1 name.length
  let set := put16 set (entryBytes + 4) (nameHash g.upcase name).toNat
  putName set name

/-- The set that `create` builds; its stream is still empty. -/
def newSet (attributes : ℕ) (name : List UInt16) : Bytes :=
  let set := Bytes.put (fun _ => 0) 0 1 typeFile.toNat
  let set := put16 set 4 attributes
  let set := put32 set 8 epochTimestamp
  let set := put32 set 12 epochTimestamp
  let set := put32 set 16 epochTimestamp
  let set := set.put entryBytes 1 typeStream.toNat
  setName g set name

/-! ## Names -/

/-- The stream of a new directory: one zeroed cluster. -/
def newDirectory : Driver (Except Error Stream) := do
  let (made, stream) ← resize g Stream.empty 1
  if made ≠ .none then pure (.error made)
  else
    let stream := { stream with length := g.clusterBytes, validLength := g.clusterBytes }
    let zeroed ← zeroStream g stream 0 stream.length
    if zeroed ≠ .none then do
      let _ ← resize g stream 0
      pure (.error zeroed)
    else pure (.ok stream)

/-- The end of `create`: the new stream gets its entry set. -/
def createEntry (directory : Node) (name : List UInt16) (attributes : ℕ) (stream : Stream) :
    Driver (Except Error Node) := do
  match ← insert g directory (newSet g attributes name) (setEntries name) with
  | .error e => do
    let _ ← resize g stream 0
    pure (.error e)
  | .ok (parent, slot) => do
    let entry : Entry := ⟨stream, attributes, (nameHash g.upcase name).toNat, name, slot⟩
    let stored ← store g parent entry
    if stored ≠ .none then pure (.error stored)
    else
      match toNode g parent entry with
      | some node => pure (.ok node)
      | none => pure (.error .invalidArgument)

/-- `create`. -/
def create (directory : Node) (name : List UInt8) (type : Vfs.NodeType) :
    Driver (Except Error Node) :=
  if g.writable = false then pure (.error .readOnly)
  else if type ≠ .file ∧ type ≠ .directory then pure (.error .unsupported)
  else do
    match ← locate g directory with
    | none => pure (.error .notFound)
    | some place =>
      if place.entry.directory = false then pure (.error .notFound)
      else
        match Text.utf8ToUtf16 name 255 with
        | none => pure (.error .invalidArgument)
        | some units =>
          if legalName units = false then pure (.error .invalidArgument)
          else do
            match ← find g place.entry.stream name with
            | some _ => pure (.error .alreadyExists)
            | none =>
              if type = .directory then do
                match ← newDirectory g with
                | .error e => pure (.error e)
                | .ok stream => createEntry g directory units attributeDirectory stream
              else createEntry g directory units attributeArchive Stream.empty

/-- The first entry of a directory, if `entry` is one. -/
def childOf (entry : Entry) : Driver (Option (Entry × ℕ)) :=
  if entry.directory then nextEntry g entry.stream 0 else pure none

/-- `remove`: the entry set goes before its clusters do. -/
def remove (directory : Node) (name : List UInt8) : Driver Error :=
  if g.writable = false then pure .readOnly
  else do
    match ← locate g directory with
    | none => pure .notFound
    | some place =>
      if place.entry.directory = false then pure .notFound
      else
        let parent := place.entry.stream
        match ← find g parent name with
        | none => pure .notFound
        | some entry => do
          match ← childOf g entry with
          | some _ => pure .notEmpty
          | none => do
            let erased ← erase g parent entry.slot
            if erased ≠ .none then pure erased
            else do
              let (released, _) ← resize g entry.stream 0
              pure released

/-- The end of `rename`: the set is written under its new name before the old one is retired. -/
def moveEntry (fromDirectory toDirectory : Node) (fromStream : Stream) (entry : Entry)
    (name : List UInt16) : Driver Error := do
  let (read, set) ← readStream g fromStream (entry.slot * entryBytes) (2 * entryBytes)
  if read.transferred ≠ 2 * entryBytes then pure .deviceError
  else
    match ← insert g toDirectory (setName g set name) (setEntries name) with
    | .error e => pure e
    | .ok (parent, slot) => do
      let moved : Entry :=
        { entry with slot, name, nameHash := (nameHash g.upcase name).toNat }
      let stored ← store g parent moved
      if stored ≠ .none then pure stored
      else
        match ← locate g fromDirectory with
        | none => pure .notFound
        | some source => erase g source.entry.stream entry.slot

/-- `rename`. -/
def rename (fromDirectory : Node) (fromName : List UInt8) (toDirectory : Node)
    (toName : List UInt8) : Driver Error :=
  if g.writable = false then pure .readOnly
  else do
    match ← locate g fromDirectory with
    | none => pure .notFound
    | some source =>
      if source.entry.directory = false then pure .notFound
      else
        match ← locate g toDirectory with
        | none => pure .notFound
        | some target =>
          if target.entry.directory = false then pure .notFound
          else
            match ← find g source.entry.stream fromName with
            | none => pure .notFound
            | some entry =>
              match ← find g target.entry.stream toName with
              | some _ => pure .alreadyExists
              | none =>
                match Text.utf8ToUtf16 toName 255 with
                | none => pure .invalidArgument
                | some name =>
                  if legalName name = false then pure .invalidArgument
                  else moveEntry g fromDirectory toDirectory source.entry.stream entry name

end ShirleysOS.Exfat
