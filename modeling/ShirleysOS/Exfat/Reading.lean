import ShirleysOS.Exfat.Mount
import ShirleysOS.Exfat.Operations

/-!
# What looking things up writes

The driver finds its way by what it reads, and what it reads may be anything. Whatever it is, the
look-ups and the reading part of `mount` write nothing: any condition on writes holds of them.
-/

namespace ShirleysOS.Exfat

open Lib Storage

variable {g : Volume} {W : ℕ → Prop}

/-! ## Bytes and the FAT -/

theorem silent_readBytesLoop (offset length : ℕ) :
    ∀ fuel done out, Writes W (readBytesLoop g offset length fuel done out)
  | 0, _, _ => writes_pure _
  | fuel + 1, done, out => by
    rw [readBytesLoop]
    refine writes_when (writes_ite (writes_ok (writes_readBlocks _ _) (fun _ => ⟨_, rfl⟩) ?_)
      (writes_ok (writes_readBlocks _ _) (fun _ => ⟨_, rfl⟩) ?_))
    · exact fun data => silent_readBytesLoop offset length fuel _ _
    · exact fun bounce => silent_readBytesLoop offset length fuel _ _

theorem silent_readBytes (offset length : ℕ) : Writes W (readBytes g offset length) :=
  silent_readBytesLoop _ _ _ _ _

theorem silent_fatNext (cluster : ℕ) : Writes W (fatNext g cluster) :=
  writes_unless (writes_bind (silent_readBytes _ _) fun _ => writes_unless (writes_pure _))

theorem silent_fatWalk : ∀ n current, Writes W (fatWalk g n current)
  | 0, _ => writes_pure _
  | n + 1, _ =>
    writes_some (silent_fatNext _) ⟨_, rfl⟩ fun next => writes_unless (silent_fatWalk n next)

theorem silent_rootNode : Writes W (rootNode g) := writes_bind writes_get fun _ => writes_pure _

theorem silent_bootSumLoop : ∀ n offset sum, Writes W (bootSumLoop g n offset sum)
  | 0, _, _ => writes_pure _
  | n + 1, _, _ =>
    writes_bind (silent_readBytes _ _) fun _ => writes_when (silent_bootSumLoop n _ _)

theorem silent_bootSumCheck (sum : UInt32) : ∀ n offset, Writes W (bootSumCheck g sum n offset)
  | 0, _ => writes_pure _
  | n + 1, _ =>
    writes_bind (silent_readBytes _ _) fun _ =>
      writes_unless (writes_when (silent_bootSumCheck sum n _))

theorem silent_rootLengthLoop :
    ∀ fuel cluster count, Writes W (rootLengthLoop g fuel cluster count)
  | 0, _, _ => writes_pure _
  | fuel + 1, _, _ =>
    writes_some (silent_fatNext _) ⟨_, rfl⟩ fun _ =>
      writes_unless (writes_unless (silent_rootLengthLoop fuel _ _))

theorem silent_clusterAt (stream : Stream) (index : ℕ) : Writes W (clusterAt g stream index) :=
  writes_unless (writes_ite (writes_unless (writes_pure _)) (writes_bind writes_get fun _ =>
    writes_some (silent_fatWalk _ _) ⟨_, rfl⟩ fun _ =>
      writes_bind (writes_modify _) fun _ => writes_pure _))

/-! ## Streams and directories -/

theorem silent_readStreamLoop (stream : Stream) (offset length : ℕ) :
    ∀ fuel done out, Writes W (readStreamLoop g stream offset length fuel done out)
  | 0, _, _ => writes_pure _
  | fuel + 1, _, _ =>
    writes_when (writes_some (silent_clusterAt _ _) ⟨_, rfl⟩ fun _ =>
      writes_bind (silent_readBytes _ _) fun _ =>
        writes_when (silent_readStreamLoop stream offset length fuel _ _))

theorem silent_readStream (stream : Stream) (offset length : ℕ) :
    Writes W (readStream g stream offset length) :=
  writes_unless (silent_readStreamLoop _ _ _ _ _ _)

theorem silent_nextEntryLoop (directory : Stream) :
    ∀ fuel slot, Writes W (nextEntryLoop g directory fuel slot)
  | 0, _ => writes_pure _
  | fuel + 1, slot => by
    have ih := silent_nextEntryLoop directory fuel
    refine writes_when (writes_bind (silent_readStream _ _ _) fun _ =>
      writes_unless (writes_unless (writes_ite (ih _) (writes_ite (ih _) ?_))))
    exact writes_bind (silent_readStream _ _ _) fun _ =>
      writes_ite (ih _) (writes_ite (ih _) (writes_unless (ih _)))

theorem silent_nextEntry (directory : Stream) (slot : ℕ) : Writes W (nextEntry g directory slot) :=
  silent_nextEntryLoop _ _ _

theorem silent_findLoop (directory : Stream) (wanted : List UInt16) :
    ∀ fuel slot, Writes W (findLoop g directory wanted fuel slot)
  | 0, _ => writes_pure _
  | fuel + 1, _ =>
    writes_some (silent_nextEntry _ _) ⟨_, rfl⟩ fun _ =>
      writes_unless (silent_findLoop directory wanted fuel _)

theorem silent_find (directory : Stream) (name : List UInt8) :
    Writes W (find g directory name) := by
  rw [find]
  split
  · exact writes_pure _
  · exact writes_unless (silent_findLoop _ _ _ _)

theorem silent_locate (node : Node) : Writes W (locate g node) :=
  writes_unless (writes_ite (writes_bind writes_get fun _ => writes_pure _)
    (writes_some (silent_nextEntry _ _) ⟨_, rfl⟩ fun _ => writes_unless (writes_pure _)))

theorem silent_decode (node : Node) : Writes W (decode g node) :=
  writes_some (silent_locate _) ⟨_, rfl⟩ fun _ => writes_pure _

theorem silent_lookup (directory : Node) (name : List UInt8) :
    Writes W (lookup g directory name) :=
  writes_some (silent_decode _) ⟨_, rfl⟩ fun _ =>
    writes_unless (writes_some (silent_find _ _) ⟨_, rfl⟩ fun _ => writes_pure _)

theorem silent_listLoop (stream : Stream) :
    ∀ fuel position slot, Writes W (listLoop g stream fuel position slot)
  | 0, _, _ => writes_pure _
  | fuel + 1, position, slot => by
    rw [listLoop]
    refine writes_some (silent_nextEntry _ _) ⟨_, rfl⟩ fun found => ?_
    dsimp only
    split
    · exact silent_listLoop stream fuel _ _
    · exact writes_pure _
    · exact silent_listLoop stream fuel _ _

theorem silent_list (directory : Node) (position : ℕ) : Writes W (list g directory position) :=
  writes_some (silent_decode _) ⟨_, rfl⟩ fun _ => writes_unless (silent_listLoop _ _ _ _)

theorem silent_read (file : Node) (offset length : ℕ) : Writes W (read g file offset length) :=
  writes_some (silent_decode _) ⟨_, rfl⟩ fun _ => writes_unless (writes_unless (writes_when
    (writes_bind (silent_readStream _ _ _) fun _ => writes_unless (writes_pure _))))

theorem silent_rootScanLoop (root : Stream) :
    ∀ fuel offset found, Writes W (rootScanLoop g root fuel offset found)
  | 0, _, _ => writes_pure _
  | fuel + 1, _, _ =>
    writes_when (writes_bind (silent_readStream _ _ _) fun _ =>
      writes_unless (writes_unless (silent_rootScanLoop root fuel _ _)))

theorem silent_loadUpcaseLoop (table : Stream) :
    ∀ fuel offset u, Writes W (loadUpcaseLoop g table fuel offset u)
  | 0, _, _ => writes_pure _
  | fuel + 1, _, _ =>
    writes_when (writes_bind (silent_readStream _ _ _) fun _ =>
      writes_when (silent_loadUpcaseLoop table fuel _ _))

theorem silent_loadUpcase (table : Stream) (checksum : ℕ) :
    Writes W (loadUpcase g table checksum) :=
  writes_unless (writes_some (silent_loadUpcaseLoop _ _ _ _) ⟨_, rfl⟩ fun _ => writes_pure _)

end ShirleysOS.Exfat
