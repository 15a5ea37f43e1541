import ShirleysOS.Exfat.Reading

/-!
# What the driver writes

The driver finds its way by what it reads, and what it reads may be anything. Whatever it is: the
operations that look things up write nothing, those that change something write nothing on a volume
that is not writable, and no operation writes a block before the FAT. The boot sector, with the flag
that says whether the volume is in use, is written by `mount` and `unmount` only.
-/

namespace ShirleysOS.Exfat

open Lib Storage

variable {g : Volume} {W : ℕ → Prop}

/-! ## Changing things -/

/-- A block from the one on in which the FAT begins. -/
def Above (g : Volume) (first : ℕ) : Prop := g.fatOffset / g.device.blockSize ≤ first

theorem above_writeBytesLoop {offset : ℕ} (hoffset : g.fatOffset ≤ offset) (length : ℕ)
    (data : Bytes) : ∀ fuel done, Writes (Above g) (writeBytesLoop g offset length data fuel done)
  | 0, _ => writes_pure _
  | fuel + 1, done => by
    have habove : Above g ((offset + done) / g.device.blockSize) :=
      Nat.div_le_div_right (Nat.le_add_right_of_le hoffset)
    have ih := above_writeBytesLoop hoffset length data fuel
    rw [writeBytesLoop]
    refine writes_when (writes_ite ?_ ?_)
    · exact writes_none (writes_writeBlocks _ _ habove) (fun _ => ⟨_, rfl⟩) (ih _)
    · refine writes_ok (writes_readBlocks _ _) (fun _ => ⟨_, rfl⟩) fun bounce => ?_
      exact writes_none (writes_writeBlocks _ _ habove) (fun _ => ⟨_, rfl⟩) (ih _)

theorem above_writeBytes {offset : ℕ} (hoffset : g.fatOffset ≤ offset) (data : Bytes)
    (length : ℕ) : Writes (Above g) (writeBytes g offset data length) :=
  above_writeBytesLoop hoffset _ _ _ _

theorem above_fatSet (cluster value : ℕ) : Writes (Above g) (fatSet g cluster value) :=
  writes_unless (writes_bind (above_writeBytes (Nat.le_add_right _ _) _ _) fun _ => writes_pure _)

section Heap

variable (hg : g.fatOffset ≤ g.heapOffset)

include hg

theorem above_writeStreamLoop (stream : Stream) (offset length : ℕ) (data : Bytes) :
    ∀ fuel done, Writes (Above g) (writeStreamLoop g stream offset length data fuel done)
  | 0, _ => writes_pure _
  | fuel + 1, done => by
    refine writes_when (writes_some (silent_clusterAt _ _) ⟨_, rfl⟩ fun cluster => ?_)
    have hposition : g.fatOffset ≤ g.position cluster + (offset + done) % g.clusterBytes := by
      rw [Volume.position, Nat.add_assoc]
      exact Nat.le_add_right_of_le hg
    exact writes_bind (above_writeBytes hposition _ _) fun _ =>
      writes_when (above_writeStreamLoop stream offset length data fuel _)

theorem above_writeStream (stream : Stream) (offset : ℕ) (data : Bytes) (length : ℕ) :
    Writes (Above g) (writeStream g stream offset data length) :=
  writes_unless (above_writeStreamLoop hg _ _ _ _ _ _)

theorem above_zeroStreamLoop (stream : Stream) :
    ∀ fuel offset length, Writes (Above g) (zeroStreamLoop g stream fuel offset length)
  | 0, _, _ => writes_pure _
  | fuel + 1, _, _ =>
    writes_when (writes_bind (above_writeStream hg _ _ _ _) fun _ =>
      writes_when (above_zeroStreamLoop stream fuel _ _))

theorem above_zeroStream (stream : Stream) (offset length : ℕ) :
    Writes (Above g) (zeroStream g stream offset length) := above_zeroStreamLoop hg _ _ _ _

theorem above_bitmapSet (cluster : ℕ) (used : Bool) :
    Writes (Above g) (bitmapSet g cluster used) :=
  writes_unless (writes_bind (silent_readStream _ _ _) fun _ =>
    writes_unless (writes_bind (above_writeStream hg _ _ _ _) fun _ => writes_pure _))

end Heap

theorem silent_searchLoop (start totalBytes : ℕ) :
    ∀ fuel scanned, Writes W (searchLoop g start totalBytes fuel scanned)
  | 0, _ => writes_pure _
  | fuel + 1, scanned => by
    refine writes_when (writes_bind (silent_readStream _ _ _) fun _ => writes_unless ?_)
    split
    · exact writes_pure _
    · exact silent_searchLoop start totalBytes fuel _

theorem silent_searchCluster : Writes W (searchCluster g) :=
  writes_bind writes_get fun _ => silent_searchLoop _ _ _ _

theorem silent_chooseCluster (prefer : ℕ) : Writes W (chooseCluster g prefer) := by
  have htest : Writes W (bitmapTest g prefer) :=
    writes_bind (silent_readStream _ _ _) fun _ => writes_unless (writes_pure _)
  refine writes_ite (writes_bind htest fun used => ?_) silent_searchCluster
  split
  · exact writes_pure _
  · exact silent_searchCluster

section Clusters

variable (hg : g.fatOffset ≤ g.heapOffset)

include hg

theorem above_allocateCluster (prefer : ℕ) : Writes (Above g) (allocateCluster g prefer) := by
  refine writes_bind (silent_chooseCluster _) fun chosen => ?_
  split
  · exact writes_pure _
  · exact writes_pure _
  · exact writes_bind (above_bitmapSet hg _ _) fun _ =>
      writes_when (writes_bind (writes_modify _) fun _ => writes_pure _)

omit hg in
theorem silent_followingCluster (stream : Stream) (current index cluster : ℕ) :
    Writes W (followingCluster g stream current index cluster) := writes_when (silent_fatNext _)

theorem above_releaseLoop (stream : Stream) (current : ℕ) :
    ∀ n index cluster, Writes (Above g) (releaseLoop g stream current n index cluster)
  | 0, _, _ => writes_pure _
  | n + 1, index, cluster => by
    have ih := above_releaseLoop stream current n
    refine writes_some (silent_followingCluster _ _ _ _) ⟨_, rfl⟩ fun next => ?_
    exact writes_bind (above_bitmapSet hg _ _) fun _ =>
      writes_when (writes_ite (ih _ _) (writes_bind (above_fatSet _ _) fun _ => ih _ _))

theorem above_releaseClusters (stream : Stream) (keep current : ℕ) :
    Writes (Above g) (releaseClusters g stream keep current) := by
  have hset (change : State → State) (stream : Stream) :
      Writes (Above g) (modify change >>= fun _ => pure (Error.none, stream) : Driver _) :=
    writes_bind (writes_modify _) fun _ => writes_pure _
  refine writes_bind (writes_modify _) fun _ => writes_unless ?_
  refine writes_some (silent_clusterAt _ _) ⟨_, rfl⟩ fun cluster =>
    writes_bind (writes_modify _) fun _ => writes_bind (above_releaseLoop hg _ _ _ _ _) fun _ => ?_
  refine writes_when (writes_ite (hset _ _) (writes_ite (hset _ _) ?_))
  exact writes_some (silent_clusterAt _ _) ⟨_, rfl⟩ fun tail =>
    writes_bind (above_fatSet _ _) fun _ => writes_when (hset _ _)

omit hg in
theorem above_chainLoop : ∀ n cluster, Writes (Above g) (chainLoop g n cluster)
  | 0, _ => writes_pure _
  | n + 1, _ => writes_bind (above_fatSet _ _) fun _ => writes_when (above_chainLoop n _)

omit hg in
theorem above_appendCluster (stream : Stream) (count last cluster : ℕ) :
    Writes (Above g) (appendCluster g stream count last cluster) := by
  have hopen : Writes (Above g) (openStream g stream count last cluster) :=
    writes_unless (writes_when (writes_bind (above_chainLoop _ _) fun _ =>
      writes_when (writes_bind (writes_modify _) fun _ => writes_pure _)))
  have hlink : Writes (Above g) (linkCluster g count last cluster) :=
    writes_ite (writes_bind (above_fatSet _ _) fun _ => writes_when (above_fatSet _ _))
      (above_fatSet _ _)
  refine writes_bind hopen fun opened => ?_
  split
  · exact writes_pure _
  · exact writes_unless (writes_bind hlink fun _ => writes_pure _)

theorem above_growLoop (current : ℕ) :
    ∀ n count last stream, Writes (Above g) (growLoop g current n count last stream)
  | 0, _, _, _ => writes_pure _
  | n + 1, count, last, stream => by
    have hundo : ∀ stream error, Writes (Above g) (undoResize g stream current count error) :=
      fun stream error => writes_bind (above_releaseClusters hg _ _ _) fun _ => writes_pure _
    refine writes_bind writes_get fun s =>
      writes_bind (above_allocateCluster hg _) fun allocated => ?_
    cases allocated with
    | error e => exact hundo _ _
    | ok cluster =>
      refine writes_bind (above_appendCluster _ _ _ _) fun appended => ?_
      split
      · exact hundo _ _
      · exact above_growLoop current n _ _ _

/-- **Clusters** are taken and given back from the FAT on. -/
theorem above_resize (stream : Stream) (clusters : ℕ) :
    Writes (Above g) (resize g stream clusters) := by
  refine writes_ite (above_releaseClusters hg _ _ _) (writes_unless ?_)
  exact writes_ite (above_growLoop hg _ _ _ _ _)
    (writes_some (silent_clusterAt _ _) ⟨_, rfl⟩ fun last => above_growLoop hg _ _ _ _ _)

end Clusters

section Entries

variable (hg : g.fatOffset ≤ g.heapOffset)

include hg

/-- What `store` and `erase` share: the set at `offset` is read twice, once for how many entries
it has and once as a whole, and its `change` is written over it. -/
theorem above_rewriteSet (parent : Stream) (offset : ℕ) (bad : Bytes → Prop) [DecidablePred bad]
    (change : Bytes → ℕ → Bytes) :
    Writes (Above g) (do
      let (read, set) ← readStream g parent offset entryBytes
      if read.transferred ≠ entryBytes then pure Error.deviceError
      else if bad set then pure .deviceError
      else
        let setBytes := ((set 1).toNat + 1) * entryBytes
        let (read, set) ← readStream g parent offset setBytes
        if read.transferred ≠ setBytes then pure .deviceError
        else
          let result ← writeStream g parent offset (change set setBytes) setBytes
          pure (if result.ok then .none else .deviceError)) :=
  writes_bind (silent_readStream _ _ _) fun _ => writes_unless (writes_unless
    (writes_bind (silent_readStream _ _ _) fun _ => writes_unless
      (writes_bind (above_writeStream hg _ _ _ _) fun _ => writes_pure _)))

theorem above_store (parent : Stream) (entry : Entry) :
    Writes (Above g) (store g parent entry) :=
  above_rewriteSet hg parent (entry.slot * entryBytes)
    (fun set => set 0 ≠ typeFile ∨ (set 1).toNat < 2 ∨ maxSetEntries - 1 < (set 1).toNat)
    fun set setBytes => setStream set setBytes entry.stream

theorem above_erase (parent : Stream) (slot : ℕ) : Writes (Above g) (erase g parent slot) :=
  above_rewriteSet hg parent (slot * entryBytes)
    (fun set => set 0 ≠ typeFile ∨ maxSetEntries - 1 < (set 1).toNat) fun set _ => retireSet set

omit hg in
theorem silent_scanLoop (parent : Stream) (entries : ℕ) :
    ∀ fuel index run, Writes W (scanLoop g parent entries fuel index run)
  | 0, _, _ => writes_pure _
  | fuel + 1, _, _ =>
    writes_when (writes_bind (silent_readStream _ _ _) fun _ =>
      writes_unless (writes_unless (silent_scanLoop parent entries fuel _ _)))

theorem above_growDirectory (place : Location) : Writes (Above g) (growDirectory g place) := by
  refine writes_unless (writes_bind (above_resize hg _ _) fun _ => writes_unless ?_)
  refine writes_bind (above_zeroStream hg _ _ _) fun _ => writes_unless (writes_ite ?_ ?_)
  · exact writes_bind (writes_modify _) fun _ => writes_pure _
  · exact above_store hg _ _

theorem above_insertAttempt (directory : Node) (set : Bytes) (entries : ℕ)
    {full : Location → Driver (Except Error (Stream × ℕ))}
    (hfull : ∀ place, Writes (Above g) (full place)) :
    Writes (Above g) (insertAttempt g directory set entries full) := by
  refine writes_some (silent_locate _) ⟨_, rfl⟩ fun place => writes_unless ?_
  refine writes_bind (silent_scanLoop _ _ _ _ _) fun scanned => ?_
  split
  · exact writes_pure _
  · exact hfull _
  · exact writes_unless (writes_bind (above_writeStream hg _ _ _ _) fun _ => writes_pure _)

/-- **Entry sets** are placed from the FAT on. -/
theorem above_insert (directory : Node) (set : Bytes) (entries : ℕ) :
    Writes (Above g) (insert g directory set entries) :=
  above_insertAttempt hg _ _ _ fun _ => writes_bind (above_growDirectory hg _) fun _ =>
    writes_unless (above_insertAttempt hg _ _ _ fun _ => writes_pure _)

end Entries

/-! ## The operations -/

section Operations

variable (hg : g.fatOffset ≤ g.heapOffset)

include hg

theorem above_writeContent (place : Location) (stream : Stream) (offset : ℕ) (data : Bytes)
    (length : ℕ) : Writes (Above g) (writeContent g place stream offset data length) := by
  have hgap (stream : Stream) (offset : ℕ) : Writes (Above g) (zeroGap g stream offset) :=
    writes_when (above_zeroStream hg _ _ _)
  have hfill (stream : Stream) : Writes (Above g) (fillStream g stream offset data length) := by
    refine writes_bind (hgap _ _) fun zeroed => ?_
    split
    · exact above_writeStream hg _ _ _ _
    · exact writes_pure _
  exact writes_bind (hfill _) fun _ => writes_bind (above_store hg _ _) fun _ =>
    writes_unless (writes_unless (writes_pure _))

theorem above_write (file : Node) (offset : ℕ) (data : Bytes) (length : ℕ) :
    Writes (Above g) (write g file offset data length) := by
  refine writes_unless (writes_some (silent_locate _) ⟨_, rfl⟩ fun place => ?_)
  refine writes_unless (writes_unless (writes_unless (writes_ite ?_ ?_)))
  · exact writes_bind (above_resize hg _ _) fun _ =>
      writes_unless (above_writeContent hg _ _ _ _ _)
  · exact above_writeContent hg _ _ _ _ _

theorem above_truncate (file : Node) (size : ℕ) : Writes (Above g) (truncate g file size) := by
  refine writes_unless (writes_some (silent_locate _) ⟨_, rfl⟩ fun place => ?_)
  exact writes_unless (writes_unless (writes_bind (above_resize hg _ _) fun _ =>
    writes_unless (above_store hg _ _)))

theorem above_createEntry (directory : Node) (name : List UInt16) (attributes : ℕ)
    (stream : Stream) : Writes (Above g) (createEntry g directory name attributes stream) := by
  refine writes_bind (above_insert hg _ _ _) fun inserted => ?_
  cases inserted with
  | error e => exact writes_bind (above_resize hg _ _) fun _ => writes_pure _
  | ok inserted =>
    refine writes_bind (above_store hg _ _) fun _ => writes_unless ?_
    split
    · exact writes_pure _
    · exact writes_pure _

theorem above_newDirectory : Writes (Above g) (newDirectory g) := by
  refine writes_bind (above_resize hg _ _) fun _ => writes_unless ?_
  exact writes_bind (above_zeroStream hg _ _ _) fun _ =>
    writes_when (writes_bind (above_resize hg _ _) fun _ => writes_pure _)

theorem above_create (directory : Node) (name : List UInt8) (type : Vfs.NodeType) :
    Writes (Above g) (create g directory name type) := by
  refine writes_unless (writes_unless (writes_some (silent_locate _) ⟨_, rfl⟩ fun place => ?_))
  refine writes_unless ?_
  split
  · exact writes_pure _
  refine writes_unless (writes_none (silent_find _ _) (fun _ => ⟨_, rfl⟩) (writes_ite ?_ ?_))
  · exact writes_ok (above_newDirectory hg) (fun _ => ⟨_, rfl⟩) fun stream =>
      above_createEntry hg _ _ _ _
  · exact above_createEntry hg _ _ _ _

theorem above_remove (directory : Node) (name : List UInt8) :
    Writes (Above g) (remove g directory name) := by
  have hchild (entry : Entry) : Writes (Above g) (childOf g entry) :=
    writes_when (silent_nextEntry _ _)
  refine writes_unless (writes_some (silent_locate _) ⟨_, rfl⟩ fun place => writes_unless ?_)
  refine writes_some (silent_find _ _) ⟨_, rfl⟩ fun entry => ?_
  refine writes_none (hchild _) (fun _ => ⟨_, rfl⟩) ?_
  exact writes_bind (above_erase hg _ _) fun _ =>
    writes_unless (writes_bind (above_resize hg _ _) fun _ => writes_pure _)

theorem above_moveEntry (fromDirectory toDirectory : Node) (fromStream : Stream) (entry : Entry)
    (name : List UInt16) :
    Writes (Above g) (moveEntry g fromDirectory toDirectory fromStream entry name) := by
  refine writes_bind (silent_readStream _ _ _) fun _ => writes_unless ?_
  refine writes_ok (above_insert hg _ _ _) (fun _ => ⟨_, rfl⟩) fun inserted => ?_
  exact writes_bind (above_store hg _ _) fun _ =>
    writes_unless (writes_some (silent_locate _) ⟨_, rfl⟩ fun source => above_erase hg _ _)

theorem above_rename (fromDirectory : Node) (fromName : List UInt8) (toDirectory : Node)
    (toName : List UInt8) :
    Writes (Above g) (rename g fromDirectory fromName toDirectory toName) := by
  refine writes_unless (writes_some (silent_locate _) ⟨_, rfl⟩ fun source => writes_unless ?_)
  refine writes_some (silent_locate _) ⟨_, rfl⟩ fun target => writes_unless ?_
  refine writes_some (silent_find _ _) ⟨_, rfl⟩ fun entry => ?_
  refine writes_none (silent_find _ _) (fun _ => ⟨_, rfl⟩) ?_
  dsimp only
  split
  · exact writes_pure _
  · exact writes_unless (above_moveEntry hg _ _ _ _ _)

end Operations

/-- The operations that the VFS calls on a mounted volume. -/
inductive Operation
  | root
  | lookup (directory : Node) (name : List UInt8)
  | list (directory : Node) (position : ℕ)
  | read (file : Node) (offset length : ℕ)
  | write (file : Node) (offset : ℕ) (data : Bytes) (length : ℕ)
  | truncate (file : Node) (size : ℕ)
  | create (directory : Node) (name : List UInt8) (type : Vfs.NodeType)
  | remove (directory : Node) (name : List UInt8)
  | rename (fromDirectory : Node) (fromName : List UInt8) (toDirectory : Node)
      (toName : List UInt8)
  | sync

/-- The program of an operation, without its answer. -/
def Operation.program (g : Volume) : Operation → Driver Unit
  | root => do let _ ← rootNode g
  | lookup directory name => do let _ ← Exfat.lookup g directory name
  | list directory position => do let _ ← Exfat.list g directory position
  | read file offset length => do let _ ← Exfat.read g file offset length
  | write file offset data length => do let _ ← Exfat.write g file offset data length
  | truncate file size => do let _ ← Exfat.truncate g file size
  | create directory name type => do let _ ← Exfat.create g directory name type
  | remove directory name => do let _ ← Exfat.remove g directory name
  | rename fromDirectory fromName toDirectory toName => do
    let _ ← Exfat.rename g fromDirectory fromName toDirectory toName
  | sync => do let _ ← Exfat.sync g

theorem writes_unit {α : Type} {W : ℕ → Prop} {p : Driver α} (hp : Writes W p) :
    Writes W (do let _ ← p) := writes_bind hp fun _ => writes_pure _

theorem Operation.above (hg : g.fatOffset ≤ g.heapOffset) (op : Operation) :
    Writes (Above g) (op.program g) := by
  cases op with
  | root => exact writes_unit silent_rootNode
  | lookup directory name => exact writes_unit (silent_lookup _ _)
  | list directory position => exact writes_unit (silent_list _ _)
  | read file offset length => exact writes_unit (silent_read _ _ _)
  | write file offset data length => exact writes_unit (above_write hg _ _ _ _)
  | truncate file size => exact writes_unit (above_truncate hg _ _)
  | create directory name type => exact writes_unit (above_create hg _ _ _)
  | remove directory name => exact writes_unit (above_remove hg _ _)
  | rename fromDirectory fromName toDirectory toName =>
    exact writes_unit (above_rename hg _ _ _ _)
  | sync =>
    exact writes_unit (writes_unless (writes_bind writes_flushBlocks fun _ =>
      writes_unless (writes_pure _)))

theorem Operation.silent (hwritable : g.writable = false) (op : Operation) :
    Writes W (op.program g) := by
  cases op with
  | root => exact writes_unit silent_rootNode
  | lookup directory name => exact writes_unit (silent_lookup _ _)
  | list directory position => exact writes_unit (silent_list _ _)
  | read file offset length => exact writes_unit (silent_read _ _ _)
  -- the others ask first whether the volume is writable
  | write file offset data length =>
    rw [program, Exfat.write, if_pos hwritable]
    exact writes_unit (writes_pure _)
  | truncate file size =>
    rw [program, Exfat.truncate, if_pos hwritable]
    exact writes_unit (writes_pure _)
  | create directory name type =>
    rw [program, Exfat.create, if_pos hwritable]
    exact writes_unit (writes_pure _)
  | remove directory name =>
    rw [program, Exfat.remove, if_pos hwritable]
    exact writes_unit (writes_pure _)
  | rename fromDirectory fromName toDirectory toName =>
    rw [program, Exfat.rename, if_pos hwritable]
    exact writes_unit (writes_pure _)
  | sync =>
    rw [program, Exfat.sync, if_pos hwritable]
    exact writes_unit (writes_pure _)

end ShirleysOS.Exfat
