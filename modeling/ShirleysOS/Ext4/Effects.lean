import ShirleysOS.Ext4.Volume

/-!
# The driver writes nothing

Whatever it is told by the device, the driver only reads: it can share a device with a volume that
is written.
-/

namespace ShirleysOS.Ext4

open Lib Storage

variable {W : ℕ → Prop}

theorem silent_readBytesLoop (block offset length : ℕ) :
    ∀ fuel done out, (readBytesLoop block offset length fuel done out).Writes W
  | 0, _, _ => trivial
  | fuel + 1, done, out => by
    rw [readBytesLoop]
    split
    · dsimp only
      split
      · rintro (_ | data)
        · trivial
        · exact silent_readBytesLoop block offset length fuel _ _
      · rintro (_ | bounce)
        · trivial
        · exact silent_readBytesLoop block offset length fuel _ _
    · trivial

theorem silent_fetch (offset length : ℕ) : Writes W (fetch offset length) :=
  writes_bind writes_get fun _ v =>
    (silent_readBytesLoop _ _ _ _ _ _).bind (f := fun read => .pure (read, v)) fun _ => trivial

theorem silent_touch (accesses : List Access) : Writes W (touch accesses) := writes_modify _

theorem silent_fillBlock (physical : ℕ) : Writes W (fillBlock physical) := by
  refine writes_bind writes_get fun v => writes_bind (writes_modify _) fun _ =>
    writes_bind (silent_touch _) fun _ => writes_bind (silent_fetch _ _) fun read => ?_
  cases read with
  | error short => exact writes_bind (writes_modify _) fun _ => writes_pure _
  | ok data => exact writes_bind (writes_modify _) fun _ => writes_pure _

theorem silent_loadInode (number : ℕ) : Writes W (loadInode number) := by
  refine writes_bind writes_get fun v => writes_unless ?_
  split
  · exact writes_pure _
  refine writes_ok (silent_fetch _ _) (fun _ => ⟨_, rfl⟩) fun descriptor => ?_
  dsimp only
  split
  · exact writes_pure _
  · exact writes_ok (silent_fetch _ _) (fun _ => ⟨_, rfl⟩) fun raw =>
      writes_bind (silent_touch _) fun _ => writes_pure _

/-- **Mounting writes nothing.** -/
theorem silent_mount (self deviceBlock deviceBlocks : ℕ) (bounceFits blockFits : Bool) :
    (mount self deviceBlock deviceBlocks bounceFits blockFits).Writes W := by
  rw [mount]
  split
  · trivial
  split
  · trivial
  split
  · trivial
  refine (silent_readBytesLoop _ _ _ _ _ _).bind fun read => ?_
  cases read with
  | error short => trivial
  | ok sb =>
    dsimp only
    split
    · trivial
    split
    · trivial
    refine (silent_loadInode _ _).bind fun ⟨root, v⟩ => ?_
    cases root with
    | none => trivial
    | some inode => trivial

/-! ## Files -/

theorem silent_mapLeaf (number logical : ℕ) (node : Bytes) (buffer : Buffer) (limit : ℕ) :
    Writes W (mapLeaf number logical node buffer limit) := by
  refine writes_bind writes_get fun v => writes_bind (silent_touch _) fun _ => ?_
  split
  · exact writes_pure _
  · exact writes_bind (writes_modify _) fun _ => writes_pure _
  · exact writes_bind (writes_modify _) fun _ => writes_pure _

theorem silent_descend (number logical : ℕ) :
    ∀ depth node buffer limit, Writes W (descend number logical depth node buffer limit)
  | 0, _, _, _ => silent_mapLeaf _ _ _ _ _
  | depth + 1, node, buffer, limit => by
    refine writes_bind writes_get fun v => writes_bind (silent_touch _) fun _ => ?_
    split
    · exact writes_bind (writes_modify _) fun _ => writes_pure _
    refine writes_unless (writes_bind (silent_fillBlock _) fun _ => writes_when ?_)
    exact writes_bind writes_get fun v => writes_bind (silent_touch _) fun _ =>
      writes_when (silent_descend number logical depth _ _ _)

theorem silent_mapExtent (inode : Inode) (logical : ℕ) : Writes W (mapExtent inode logical) := by
  refine writes_bind writes_get fun v => writes_unless (writes_bind (silent_touch _) fun _ => ?_)
  split
  · exact writes_pure _
  · exact silent_descend _ _ _ _ _ _

theorem silent_pointer (table index : ℕ) : Writes W (pointer table index) := by
  refine writes_bind writes_get fun v => writes_unless (writes_unless ?_)
  exact writes_ok (silent_fetch _ _) (fun _ => ⟨_, rfl⟩) fun bytes => writes_pure _

theorem silent_pointerLoop (perBlock : ℕ) :
    ∀ levels span logical value, Writes W (pointerLoop perBlock levels span logical value)
  | 0, _, _, _ => writes_pure _
  | levels + 1, _, _, _ =>
    writes_some (silent_pointer _ _) ⟨_, rfl⟩ fun _ => silent_pointerLoop perBlock levels _ _ _

theorem silent_mapBlock (inode : Inode) (logical : ℕ) : Writes W (mapBlock inode logical) := by
  refine writes_unless (writes_ite (silent_mapExtent _ _) ?_)
  refine writes_bind (writes_bind writes_get fun v => writes_ite ?_ ?_) fun _ => writes_pure _
  · exact writes_bind (silent_touch _) fun _ => writes_pure _
  split
  · exact writes_pure _
  · exact writes_bind (silent_touch _) fun _ =>
      writes_bind (silent_pointerLoop _ _ _ _ _) fun _ => writes_pure _

theorem silent_readInodeLoop (inode : Inode) (offset length : ℕ) :
    ∀ fuel done out, Writes W (readInodeLoop inode offset length fuel done out)
  | 0, _, _ => writes_pure _
  | fuel + 1, done, out => by
    have ih := silent_readInodeLoop inode offset length fuel
    refine writes_when (writes_bind writes_get fun v =>
      writes_some (silent_mapBlock _ _) ⟨_, rfl⟩ fun place => writes_ite (ih _ _) ?_)
    exact writes_ok (silent_fetch _ _) (fun _ => ⟨_, rfl⟩) fun data => ih _ _

theorem silent_decode (node : Vfs.Node ℕ) : Writes W (decode node) :=
  writes_bind writes_get fun _ => writes_unless (silent_loadInode _)

theorem silent_readInode (inode : Inode) (offset length : ℕ) :
    Writes W (readInode inode offset length) :=
  writes_unless (writes_ite (writes_bind (silent_touch _) fun _ => writes_pure _)
    (silent_readInodeLoop _ _ _ _ _ _))

theorem silent_read (file : Vfs.Node ℕ) (offset length : ℕ) (buffer : Bool) :
    Writes W (read file offset length buffer) :=
  writes_some (silent_decode _) ⟨_, rfl⟩ fun _ =>
    writes_unless (writes_unless (writes_unless (writes_unless (silent_readInode _ _ _))))

/-! ## Directories -/

theorem silent_scanRecord (position : ℕ) : Writes W (scanRecord position) := by
  refine writes_bind writes_get fun v => writes_unless (writes_bind (silent_touch _) fun _ => ?_)
  split
  · exact writes_pure _
  exact writes_bind (silent_touch _) fun _ =>
    writes_when (writes_bind (silent_touch _) fun _ => writes_pure _)

theorem silent_scanStep (directory : Inode) (position : ℕ) :
    Writes W (scanStep directory position) := by
  refine writes_bind writes_get fun v => writes_ite ?_ (silent_scanRecord _)
  refine writes_some (silent_mapBlock _ _) ⟨_, rfl⟩ fun place => writes_unless ?_
  exact writes_bind (silent_fillBlock _) fun _ =>
    writes_when (writes_bind (writes_modify _) fun _ => silent_scanRecord _)

theorem silent_nextEntryLoop (directory : Inode) :
    ∀ fuel position, Writes W (nextEntryLoop directory fuel position)
  | 0, _ => writes_pure _
  | fuel + 1, position => by
    refine writes_when (writes_bind (silent_scanStep _ _) fun step => ?_)
    cases step with
    | stop => exact writes_pure _
    | skip next =>
      exact writes_bind (writes_modify _) fun _ => silent_nextEntryLoop directory fuel next
    | entry entry next => exact writes_bind (writes_modify _) fun _ => writes_pure _

theorem silent_nextEntry (directory : Inode) (fuel position : ℕ) :
    Writes W (nextEntry directory fuel position) := writes_unless (silent_nextEntryLoop _ _ _)

theorem silent_openEntry (entry : Entry) : Writes W (openEntry entry) :=
  writes_bind (silent_loadInode _) fun _ => writes_pure _

theorem silent_lookupLoop (directory : Inode) (name : List UInt8) (fuel : ℕ) :
    ∀ rounds position, Writes W (lookupLoop directory name fuel rounds position)
  | 0, _ => writes_pure _
  | rounds + 1, position => by
    refine writes_some (silent_nextEntry _ _ _) ⟨_, rfl⟩ fun found => ?_
    cases found with
    | none => exact writes_pure _
    | some found =>
      exact writes_ite (silent_lookupLoop directory name fuel rounds _)
        (writes_bind (silent_openEntry _) fun _ => writes_pure _)

theorem silent_listLoop (directory : Inode) (target fuel : ℕ) :
    ∀ rounds index position, Writes W (listLoop directory target fuel rounds index position)
  | 0, _, _ => writes_pure _
  | rounds + 1, index, position => by
    have ih := silent_listLoop directory target fuel rounds
    refine writes_some (silent_nextEntry _ _ _) ⟨_, rfl⟩ fun found => ?_
    cases found with
    | none => exact writes_pure _
    | some found =>
      refine writes_bind (silent_openEntry _) fun node => ?_
      cases node with
      | none => exact ih _ _
      | some node =>
        exact writes_ite (writes_bind (writes_modify _) fun _ => writes_pure _) (ih _ _)

/-- **No call writes anything.** -/
theorem silent_call (fuel : ℕ) (c : Call) : Writes W (call fuel c) := by
  cases c with
  | lookup directory name =>
    exact writes_bind (writes_some (silent_decode _) ⟨_, rfl⟩ fun _ =>
      writes_unless (writes_unless (silent_lookupLoop _ _ _ _ _))) fun _ => writes_pure _
  | list directory position =>
    refine writes_bind (writes_some (silent_decode _) ⟨_, rfl⟩ fun _ =>
      writes_bind writes_get fun v => writes_unless ?_) fun _ => writes_pure _
    exact writes_ite (silent_listLoop _ _ _ _ _ _) (silent_listLoop _ _ _ _ _ _)
  | read file offset length buffer =>
    exact writes_bind (silent_read _ _ _ _) fun _ => writes_pure _

end ShirleysOS.Ext4
