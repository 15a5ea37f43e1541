import ShirleysOS.Ext4.Volume
import ShirleysOS.Lib.Runs

/-!
# What an ext4 image says

An image is what the superblock says together with the bytes of the disk. It has inodes, each of
which maps the logical blocks of its file to blocks of the volume, and so has a content; and an
inode that is a directory has entries. None of this depends on what a driver remembers.

The map of an inode with an extent tree is that of the runs in its leaves, from left to right. A
tree is well formed when the runs of every subtree are in order and inside of the interval that the
entry above them and the next one give.
-/

namespace ShirleysOS.Ext4

open Lib Storage

/-- What the superblock says, and the bytes of the disk. -/
structure Image where
  layout : Layout
  content : Bytes

namespace Image

variable (g : Image)

/-- Some bytes of the disk. -/
def cut (offset length : ℕ) : Bytes := (g.content.slice offset).trim length

/-- A block of the volume. -/
def block (b : ℕ) : Bytes := g.cut (b * g.layout.blockBytes) g.layout.blockBytes

/-- The inode with a number. -/
def inode (number : ℕ) : Option Inode :=
  let l := g.layout
  if number = 0 ∨ l.inodesCount < number then none
  else
    match descriptorOffset l ((number - 1) / l.inodesPerGroup) with
    | none => none
    | some offset =>
      match inodeTable l (g.cut offset (if l.descriptorBytes < 64 then l.descriptorBytes else 64))
      with
      | none => none
      | some table =>
        decodeInode l number (g.cut
          (table * l.blockBytes + (number - 1) % l.inodesPerGroup * l.inodeBytes) inodeCoreBytes)

end Image

/-! ## Extent trees -/

/-- The run of an extent. -/
def Extent.run (e : Extent) : Stretch := ⟨e.first, e.count, e.target⟩

/-- The extents of a leaf. -/
def leafExtents (node : Bytes) : List Extent := (List.range (node.nat 2 2)).map (extentAt node)

/-- The entries of an index node: first blocks and children. -/
def indexEntries (node : Bytes) : List (ℕ × ℕ) :=
  (List.range (node.nat 2 2)).map fun i => (indexFirst node i, childOf node i)

/-- Where the interval of an entry ends: where the next one starts, or with the node. -/
def nextFirst (hi : ℕ) : List (ℕ × ℕ) → ℕ
  | [] => hi
  | (first, _) :: _ => first

/-- Every entry has its interval inside of that of the node, and its child is as `D` says. -/
def Chain (D : ℕ → ℕ → ℕ → Prop) : ℕ → ℕ → List (ℕ × ℕ) → Prop
  | lo, hi, [] => lo ≤ hi
  | lo, hi, (first, child) :: rest =>
    lo ≤ first ∧ D first (nextFirst hi rest) child ∧ Chain D (nextFirst hi rest) hi rest

namespace Image

variable (g : Image)

/-- The runs in the leaves under a node, from left to right. -/
def runs : ℕ → Bytes → List Stretch
  | 0, node => (leafExtents node).map Extent.run
  | depth + 1, node => (indexEntries node).flatMap fun e => runs depth (g.block e.2)

/-- **A well-formed tree**: sorted, nested in its intervals, without overlaps and in the volume. -/
def Nested : ℕ → ℕ → ℕ → Bytes → Prop
  | 0, lo, hi, node => Stretch.InOrder lo hi (g.runs 0 node) ∧
    ∀ e ∈ leafExtents node, e.inside g.layout.blocksCount = true
  | depth + 1, lo, hi, node =>
    Chain (fun lo hi child => (child ≠ 0 ∧ child < g.layout.blocksCount ∧
      nodeDepth (g.block child) g.layout.blockBytes = some depth) ∧
        Nested depth lo hi (g.block child)) lo hi (indexEntries node)

/-- **An inode with a well-formed extent tree.** -/
def WellFormed (i : Inode) : Prop :=
  ∃ depth, nodeDepth i.block iBlockBytes = some depth ∧ g.Nested depth 0 logicalLimit i.block

/-- An inode whose extent tree, if it has one, is well formed. -/
def Good (i : Inode) : Prop := has i.flags inodeFlagExtents = true → g.WellFormed i

/-! ## Direct and indirect blocks -/

/-- The pointer at `index` of an indirect block. -/
def pointer (table index : ℕ) : Option ℕ :=
  if table = 0 then some 0
  else if g.layout.blocksCount ≤ table then none
  else some ((g.cut (table * g.layout.blockBytes + index * 4) 4).nat 0 4)

/-- The block with the number `index` under an indirect block of some levels. -/
def follow : ℕ → ℕ → ℕ → Option ℕ
  | 0, _, value => some value
  | levels + 1, index, value =>
    let span := (g.layout.blockBytes / 4) ^ levels
    (g.pointer value (index / span)).bind (follow levels (index % span))

/-- The block of a file without an extent tree: twelve direct ones, then those under a single, a
double and a triple indirect block. -/
def indirect (i : Inode) (logical : ℕ) : Option ℕ :=
  let n := g.layout.blockBytes / 4
  let index := logical - directBlocks
  inVolume g.layout
    (if logical < directBlocks then some (i.block.nat (4 * logical) 4)
    else if index < n then g.follow 1 index (i.block.nat 48 4)
    else if index < n + n ^ 2 then g.follow 2 (index - n) (i.block.nat 52 4)
    else if index < n + n ^ 2 + n ^ 3 then g.follow 3 (index - n - n ^ 2) (i.block.nat 56 4)
    else some 0)

/-! ## Files -/

/-- **The map of an inode**: the block that a logical block is in, or zero where it reads as
zeros; `none` when the inode has no right map there. -/
def mapped (i : Inode) (logical : ℕ) : Option ℕ :=
  if logicalLimit ≤ logical then some 0
  else if has i.flags inodeFlagExtents then
    (nodeDepth i.block iBlockBytes).map fun depth => Stretch.lookup (g.runs depth i.block) logical
  else g.indirect i logical

/-- **The content of a file.** -/
def byte (i : Inode) : Bytes := fun x =>
  match g.mapped i (x / g.layout.blockBytes) with
  | none => 0
  | some 0 => 0
  | some b => g.content (b * g.layout.blockBytes + x % g.layout.blockBytes)

/-- How many of the `length` bytes from `offset` on there are before the first block without a right
map. -/
def upTo (i : Inode) (offset length : ℕ) : ℕ :=
  ((List.range length).find? fun k =>
    (g.mapped i ((offset + k) / g.layout.blockBytes)).isNone).getD length

/-- The bytes up to a block without a right map. -/
def readTo (i : Inode) (offset length : ℕ) : Result × Bytes :=
  let done := g.upTo i offset length
  (⟨done, if done = length then .none else .deviceError⟩, ((g.byte i).slice offset).trim done)

/-- **What a read of a file gives**: the bytes up to its end, or up to a block without a right
map. -/
def readInode (i : Inode) (offset length : ℕ) : Result × Bytes :=
  if i.size ≤ offset then (⟨0, .none⟩, fun _ => 0)
  else
    let length := if i.size - offset < length then i.size - offset else length
    if i.fastSymlink then (⟨length, .none⟩, (i.block.slice offset).trim length)
    else g.readTo i offset length

end Image

/-! ## Directories -/

/-- The step of a scan at a position of a directory block. -/
def recordStep (l : Layout) (block : Bytes) (position : ℕ) : ScanStep :=
  let within := position % l.blockBytes
  if l.blockBytes < within + 8 then .stop
  else
    match decodeRecord l block within with
    | none => .stop
    | some r =>
      let next := (position + r.record) % 2 ^ 64
      if r.isEntry l then .entry ⟨r.inode, r.name⟩ next else .skip next

namespace Image

variable (g : Image)

/-- The step of a scan of a directory. -/
def scan (directory : Inode) (position : ℕ) : ScanStep :=
  let logical := position / g.layout.blockBytes
  match g.mapped directory logical with
  | none => .stop
  | some 0 => .skip ((logical + 1) * g.layout.blockBytes % 2 ^ 64)
  | some b => recordStep g.layout (g.block b) position

/-- The next entry of a directory, when the steps are enough. -/
def nextLoop (directory : Inode) : ℕ → ℕ → Option (Option (Entry × ℕ))
  | 0, _ => none
  | fuel + 1, position =>
    if position < directory.size then
      match g.scan directory position with
      | .stop => some none
      | .skip next => nextLoop directory fuel next
      | .entry entry next => some (some (entry, next))
    else some none

/-- The next entry of a directory; an encrypted one has none. -/
def next (directory : Inode) (fuel position : ℕ) : Option (Option (Entry × ℕ)) :=
  if has directory.flags inodeFlagEncrypt then some none else g.nextLoop directory fuel position

/-- The node of an entry. -/
def node (entry : Entry) : Option Vfs.Entry :=
  (g.inode entry.inode).bind fun inode => toNode inode entry

/-- The first entry with a name. -/
def find (directory : Inode) (name : List UInt8) (fuel : ℕ) :
    ℕ → ℕ → Option (Option Vfs.Entry)
  | 0, _ => none
  | rounds + 1, position =>
    match g.next directory fuel position with
    | none => none
    | some none => some none
    | some (some (entry, next)) =>
      if entry.name ≠ name then find directory name fuel rounds next else some (g.node entry)

/-- The entry with a number, among those that can be opened. -/
def nth (directory : Inode) (target : ℕ) (fuel : ℕ) : ℕ → ℕ → ℕ → Option (Option Vfs.Entry)
  | 0, _, _ => none
  | rounds + 1, index, position =>
    match g.next directory fuel position with
    | none => none
    | some none => some none
    | some (some (entry, next)) =>
      match g.node entry with
      | none => nth directory target fuel rounds index next
      | some node =>
        if index = target then some (some node)
        else nth directory target fuel rounds (index + 1) next

/-! ## Calls -/

/-- The inode of a node. -/
def decode (self : ℕ) (node : Vfs.Node ℕ) : Option Inode :=
  if node.filesystem ≠ self ∨ node.id = 0 ∨ g.layout.inodesCount < node.id then none
  else g.inode node.id

/-- What a lookup gives. -/
def lookup (self fuel : ℕ) (directory : Vfs.Node ℕ) (name : List UInt8) :
    Option (Option Vfs.Entry) :=
  match g.decode self directory with
  | none => some none
  | some parent =>
    if !parent.directory then some none
    else if name.length = 0 ∨ 255 < name.length then some none
    else g.find parent name fuel fuel 0

/-- What a listing gives that may start from a place that is remembered. -/
def list (self : ℕ) (listing : Listing) (fuel : ℕ) (directory : Vfs.Node ℕ) (target : ℕ) :
    Option (Option Vfs.Entry) :=
  match g.decode self directory with
  | none => some none
  | some parent =>
    if !parent.directory then some none
    else if listing.inode = parent.number ∧ listing.index ≤ target then
      g.nth parent target fuel fuel listing.index listing.position
    else g.nth parent target fuel fuel 0 0

/-- What a read gives. -/
def read (self : ℕ) (file : Vfs.Node ℕ) (offset length : ℕ) (buffer : Bool) : Result × Bytes :=
  match g.decode self file with
  | none => (⟨0, .invalidArgument⟩, fun _ => 0)
  | some inode =>
    if inode.directory then (⟨0, .invalidArgument⟩, fun _ => 0)
    else if length ≠ 0 ∧ !buffer then (⟨0, .invalidArgument⟩, fun _ => 0)
    else if !inode.regular && !inode.symlink then (⟨0, .unsupported⟩, fun _ => 0)
    else if has inode.flags inodeFlagEncrypt then (⟨0, .unsupported⟩, fun _ => 0)
    else g.readInode inode offset length

/-- What a call gives. -/
def call (self : ℕ) (listing : Listing) (fuel : ℕ) : Call → Option Outcome
  | .lookup directory name => (g.lookup self fuel directory name).map .node
  | .list directory position => (g.list self listing fuel directory position).map .node
  | .read file offset length buffer =>
    let (result, bytes) := g.read self file offset length buffer
    some (.data result bytes)

end Image

/-- The node that a call is about. -/
def Call.node : Call → Vfs.Node ℕ
  | .lookup directory _ => directory
  | .list directory _ => directory
  | .read file _ _ _ => file

end ShirleysOS.Ext4
