import ShirleysOS.Storage.Reading
import ShirleysOS.Vfs.Path

/-!
# Reading an image

The read-only file system of the kernel: mounting an image, finding entries by their paths, listing
directories and reading files. Source: `kernel/fs/shrfs.cpp`.

Paths and names are C strings, given by the bytes before their zero.
-/

namespace ShirleysOS.Shrfs

open Lib Storage Vfs

/-- The size of the bounce buffer. -/
abbrev bounceBytes : ℕ := 512

/-- `max_name_length`. -/
abbrev maxName : ℕ := 55

/-- A mounted image, with what the device says of itself. -/
structure Fs where
  block : ℕ
  blocks : ℕ
  entries : ℕ
  tableOffset : ℕ
  dataOffset : ℕ
  imageBytes : ℕ
  fileBytes : ℕ
deriving DecidableEq, Repr

/-- `Node`. -/
structure Node where
  name : List UInt8
  directory : Bool
  size : ℕ
  index : ℕ
  parent : ℕ
deriving DecidableEq, Repr

/-! ## Bytes -/

/-- The loop of `read_bytes` when `done` bytes have been read: one block at a time. -/
def readBytesLoop (block blocks offset length : ℕ) : ℕ → ℕ → Bytes → Io Error (Option Bytes)
  | 0, _, out => .pure (some out)
  | fuel + 1, done, out =>
    if done < length then
      let index := (offset + done) / block
      let within := (offset + done) % block
      if blocks ≤ index then .pure none
      else
        .read index 1 fun
          | .error _ => .pure none
          | .ok bounce =>
            let amount := if length - done < block - within then length - done else block - within
            readBytesLoop block blocks offset length fuel (done + amount)
              (out.splice done amount (bounce.slice within))
    else .pure (some out)

/-- `read_bytes` from a device with blocks of `block` bytes; every round of the loop reads at least
one byte. -/
def readBytes (block blocks offset length : ℕ) : Io Error (Option Bytes) :=
  if block = 0 ∨ bounceBytes < block then .pure none
  else readBytesLoop block blocks offset length length 0 fun _ => 0

/-! ## Entries -/

/-- The bytes of a field up to the first zero. -/
def nameIn (raw : Bytes) (length : ℕ) : List UInt8 :=
  ((List.range length).map raw).takeWhile fun c => c ≠ 0

/-- What `read_entry` makes of the bytes of the entry `index`. -/
def decodeEntry (fs : Fs) (index : ℕ) (raw : Bytes) : Option Node :=
  let name := nameIn raw 56
  let directory := raw.nat 56 4 % 2 == 1
  let parent := raw.nat 60 4
  let offset := raw.nat 64 8
  let size := raw.nat 72 8
  if maxName < name.length then none
  else if fs.entries ≤ parent then none
  else if !directory ∧ (offset < fs.dataOffset ∨ fs.imageBytes < offset ∨
      fs.imageBytes - offset < size) then none
  else some { name, directory, size, index, parent }

/-- `read_entry`. -/
def readEntry (fs : Fs) (index : ℕ) : Io Error (Option Node) :=
  if fs.entries ≤ index then .pure none
  else do
    let raw ← readBytes fs.block fs.blocks (fs.tableOffset + index * 80) 80
    .pure (raw.bind (decodeEntry fs index))

/-- `data_offset_of`. -/
def dataOffsetOf (fs : Fs) (index : ℕ) : Io Error ℕ := do
  match ← readBytes fs.block fs.blocks (fs.tableOffset + index * 80) 80 with
  | none => .pure 0
  | some raw => .pure (raw.nat 64 8)

/-! ## Mounting -/

/-- The magic number at the beginning of an image. -/
def magicBytes : List UInt8 := [0x53, 0x48, 0x52, 0x46, 0x53, 0x31, 0, 0]

/-- What `mount` makes of the header, on a device with the given blocks. -/
def decodeHeader (block blocks : ℕ) (raw : Bytes) : Option Fs :=
  let version := raw.nat 8 4
  let count := raw.nat 12 4
  let table := raw.nat 16 4
  let data := raw.nat 20 4
  let size := raw.nat 24 8
  let deviceBytes := blocks * block % 2 ^ 64
  if (List.range 8).map raw ≠ magicBytes then none
  else if version ≠ 1 ∨ count = 0 ∨ table < 32 ∨ data < table ∨ deviceBytes < size ∨
      (size + (2 ^ 64 - table)) % 2 ^ 64 < count * 80 ∨ data < table + count * 80 then none
  else some {
    block := block
    blocks := blocks
    entries := count
    tableOffset := table
    dataOffset := data
    imageBytes := size
    fileBytes := 0 }

/-- The loop of `mount` over the entries: every one has to decode, and the sizes of the files are
added up. -/
def sizesLoop (fs : Fs) : ℕ → ℕ → ℕ → Io Error (Option ℕ)
  | 0, _, bytes => .pure (some bytes)
  | left + 1, index, bytes => do
    match ← readEntry fs index with
    | none => .pure none
    | some node =>
      sizesLoop fs left (index + 1)
        (if node.directory then bytes else (bytes + node.size) % 2 ^ 64)

/-- `mount` on a device with blocks of `block` bytes. -/
def mount (block blocks : ℕ) : Io Error (Option Fs) := do
  match ← readBytes block blocks 0 32 with
  | none => .pure none
  | some raw =>
    match decodeHeader block blocks raw with
    | none => .pure none
    | some fs => do
      match ← readEntry fs 0 with
      | none => .pure none
      | some root =>
        if !root.directory then .pure none
        else do
          let bytes ← sizesLoop fs fs.entries 0 0
          .pure (bytes.map fun fileBytes => { fs with fileBytes })

/-! ## Calls -/

/-- The loop of `lookup` over the entries from `index` on, for a child of `current`: `none` when an
entry does not decode. -/
def childLoop (fs : Fs) (current : Node) (component : List UInt8) :
    ℕ → ℕ → Io Error (Option (Option Node))
  | 0, _ => .pure (some none)
  | left + 1, index => do
    match ← readEntry fs index with
    | none => .pure none
    | some candidate =>
      if candidate.parent ≠ current.index ∨ candidate.name ≠ component then
        childLoop fs current component left (index + 1)
      else .pure (some (some candidate))

/-- One component of `lookup`. -/
def lookupStep (fs : Fs) (current : Node) (component : List UInt8) : Io Error (Option Node) :=
  if maxName + 1 < component.length + 1 then .pure none
  else if component = dot then .pure (some current)
  else if component = dotDot then readEntry fs current.parent
  else if !current.directory then .pure none
  else do
    let found ← childLoop fs current component (fs.entries - 1) 1
    .pure (found.bind id)

/-- The loop of `lookup` over the components: slashes are skipped, and a component is taken. -/
def lookupLoop (fs : Fs) : ℕ → List UInt8 → Node → Io Error (Option Node)
  | 0, cursor, current => .pure
    (if (cursor.dropWhile isSeparator).isEmpty then some current else none)
  | fuel + 1, cursor, current =>
    match cursor.dropWhile isSeparator with
    | [] => .pure (some current)
    | c :: rest => do
      match ← lookupStep fs current ((c :: rest).takeWhile fun c => !isSeparator c) with
      | none => .pure none
      | some next => lookupLoop fs fuel ((c :: rest).dropWhile fun c => !isSeparator c) next

/-- `lookup` of a path; `base` is `none` when it is null. -/
def lookup (fs : Fs) (path : List UInt8) (base : Option Node) : Io Error (Option Node) :=
  let start := if path.head? = some slash then none else base
  match start with
  | some current => lookupLoop fs path.length path current
  | none => do
    match ← readEntry fs 0 with
    | none => .pure none
    | some root => lookupLoop fs path.length path root

/-- The loop of `list` over the entries from `index` on, when `seen` children have been passed. -/
def listLoop (fs : Fs) (directory : Node) (position : ℕ) : ℕ → ℕ → ℕ → Io Error (Option Node)
  | 0, _, _ => .pure none
  | left + 1, index, seen => do
    match ← readEntry fs index with
    | none => .pure none
    | some candidate =>
      if candidate.parent ≠ directory.index then
        listLoop fs directory position left (index + 1) seen
      else if seen = position then .pure (some candidate)
      else listLoop fs directory position left (index + 1) (seen + 1)

/-- `list`. -/
def list (fs : Fs) (directory : Node) (position : ℕ) : Io Error (Option Node) :=
  if !directory.directory then .pure none
  else listLoop fs directory position (fs.entries - 1) 1 0

/-- `read`. -/
def read (fs : Fs) (file : Node) (offset length : ℕ) (buffer : Bool) : Io Error (Result × Bytes) :=
  if file.directory then .pure (⟨0, .invalidArgument⟩, fun _ => 0)
  else if length ≠ 0 ∧ !buffer then .pure (⟨0, .invalidArgument⟩, fun _ => 0)
  else if fs.entries ≤ file.index then .pure (⟨0, .invalidArgument⟩, fun _ => 0)
  else if file.size ≤ offset then .pure (⟨0, .none⟩, fun _ => 0)
  else do
    let length := if file.size - offset < length then file.size - offset else length
    let start ← dataOffsetOf fs file.index
    if start = 0 then .pure (⟨0, .deviceError⟩, fun _ => 0)
    else
      match ← readBytes fs.block fs.blocks (start + offset) length with
      | none => .pure (⟨0, .deviceError⟩, fun _ => 0)
      | some bytes => .pure (⟨length, .none⟩, bytes)

end ShirleysOS.Shrfs
