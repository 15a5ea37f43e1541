import ShirleysOS.Ext4.Caches
import ShirleysOS.Ext4.Session

/-!
# Sessions over a device that does not fail

Over a device that does not fail, what a call returns in a session is what the image says: the same
as on a volume that was just mounted, whatever was called before. A read of a file whose map is
right gives its content.
-/

namespace ShirleysOS.Ext4

open Lib Storage

variable {d d' : Device} {g : Image} {v v' : Volume} {log : List (ℕ × ℕ)}

theorem imageOf_same (h : Device.Same d d') : imageOf d' = imageOf d := by
  unfold imageOf superblockOf
  rw [h.content]

theorem Cached.same (hc : Cached d g v) (h : Device.Same d d') : Cached d' g v :=
  ⟨⟨hc.sound.same h, hc.content.trans h.content.symm, hc.layout, hc.remembers⟩, hc.loaded,
    hc.listing⟩

/-- **A volume that was just mounted** remembers nothing. -/
theorem Fresh.cached {address : ℕ} (h : Fresh address v) (hs : Sound d v)
    (hlayout : v.layout = superblockFields (superblockOf d)) : Cached d (imageOf d) v := by
  have hnone : ∀ {P : Inode → Prop} (inode : Inode), (imageOf d).inode 0 = some inode →
      P inode := by
    intro P inode hinode
    rw [inode_zero] at hinode
    cases hinode
  refine ⟨⟨hs, rfl, hlayout, ?_⟩, ?_, ?_⟩
  · unfold Remembers
    rw [h.extent]
    exact hnone
  · rw [h.loaded]
    exact hnone
  · rw [h.listing]
    exact hnone

/-- A call leaves the device and the address of the volume as they are. -/
theorem Session.step (h : Session d v log) {fuel : ℕ} {c : Call} {out : Option Outcome}
    (hrun : runDevice (Ext4.call fuel c v) d = ((out, v'), d')) :
    Device.Same d d' ∧ v'.self = v.self := by
  obtain ⟨⟨bound, new, hscanned, -⟩, hsame⟩ :=
    runDevice_of_always (call_scanned h.held.sound fuel c)
  rw [hrun] at hscanned hsame
  exact ⟨hsame, hscanned.self⟩

theorem works_same (h : Device.Same d d') : (∀ n, d'.faults n = none) ↔ ∀ n, d.faults n = none := by
  rw [h.faults]

/-- **In every session** what is remembered is what the image says. -/
theorem Session.cached (h : Session d v log) (hworks : ∀ n, d.faults n = none) :
    Cached d (imageOf d) v := by
  induction h with
  | @mount d d' v self bounceFits blockFits h =>
    obtain ⟨hout, hsame⟩ := runDevice_of_always (mount_sound d self bounceFits blockFits)
    rw [h] at hout hsame
    obtain ⟨hs, hfresh, hlayout, -⟩ := hout v rfl
    rw [imageOf_same hsame]
    exact (hfresh.cached hs hlayout).same hsame
  | @call d d' v v' log fuel c out hbefore h ih =>
    have hsame := (hbefore.step h).1
    have hworks := (works_same hsame).mp hworks
    have hcall := (runDevice_of_exact hworks (call_exact (ih hworks) fuel c)).1
    rw [h] at hcall
    rw [imageOf_same hsame]
    exact hcall.1.same hsame

theorem Session.remounts (h : Session d v log) (hworks : ∀ n, d.faults n = none) :
    ∃ v₀ d₀, runDevice (Ext4.mount v.self d.blockSize d.blockCount true true) d =
      (.ok v₀, d₀) := by
  induction h with
  | @mount d d' v self bounceFits blockFits h =>
    have hmount := mount_sound d self bounceFits blockFits
    obtain ⟨hout, hsame⟩ := runDevice_of_always hmount
    rw [h] at hout hsame
    obtain ⟨-, hfresh, -, -, rfl, rfl⟩ := hout v rfl
    have hagain := runDevice_again ((works_same hsame).mp hworks) hsame
      (hmount.fewer fun _ _ _ => Device.exact_answers)
    rw [h] at hagain
    rw [hfresh.self, hsame.blockSize, hsame.blockCount]
    exact ⟨v, (runDevice _ d').2, Prod.ext hagain rfl⟩
  | @call d d' v v' log fuel c out hbefore h ih =>
    obtain ⟨hsame, hself⟩ := hbefore.step h
    have hworks := (works_same hsame).mp hworks
    obtain ⟨v₀, d₀, hmount⟩ := ih hworks
    have hagain := runDevice_again hworks hsame
      ((mount_sound d v.self true true).fewer fun _ _ _ => Device.exact_answers)
    rw [hmount] at hagain
    rw [hself, hsame.blockSize, hsame.blockCount]
    exact ⟨v₀, (runDevice _ d').2, Prod.ext hagain rfl⟩

/-! ## Transparency -/

theorem nth_rounds {directory : Inode} {target index position : ℕ} {out : Option Vfs.Entry} :
    (∃ fuel, g.nth directory target fuel fuel index position = some out) ↔
      ∃ fuel rounds, g.nth directory target fuel rounds index position = some out :=
  ⟨fun ⟨fuel, h⟩ => ⟨fuel, fuel, h⟩, fun ⟨fuel, rounds, h⟩ =>
    ⟨max fuel rounds, nth_mono h (Nat.le_max_left fuel rounds) (Nat.le_max_right fuel rounds)⟩⟩

/-- A place that is remembered does not change what a listing gives. -/
theorem list_resumes (self : ℕ) {listing : Listing} {node : Vfs.Node ℕ} (target : ℕ)
    (out : Option Vfs.Entry) (hgood : g.GoodNode node)
    (hlisting : ∀ inode, g.inode listing.inode = some inode → g.Good inode →
      g.Passed inode listing.index listing.position) :
    (∃ fuel, g.list self listing fuel node target = some out) ↔
      ∃ fuel, g.list self ⟨0, 0, 0⟩ fuel node target = some out := by
  unfold Image.list
  cases hdecode : g.decode self node with
  | none => exact Iff.rfl
  | some parent =>
    obtain ⟨hnode, hinode⟩ := decode_inode hdecode
    dsimp only
    split
    · exact Iff.rfl
    simp only [ite_self]
    split
    · next hresume =>
      rw [nth_rounds, nth_rounds]
      exact nth_passed (hlisting parent (by rw [hresume.1]; exact hinode) (hgood parent hnode))
        hresume.2
    · exact Iff.rfl

/-- **What a call returns** is what the image says, whatever is remembered. -/
theorem call_returns (hc : Cached d g v) (hworks : ∀ n, d.faults n = none) {c : Call}
    (hgood : g.GoodNode c.node) (out : Outcome) :
    (∃ fuel, (runDevice (call fuel c v) d).1.1 = some out) ↔
      ∃ fuel, g.call v.self ⟨0, 0, 0⟩ fuel c = some out := by
  have hcall : ∀ fuel, (runDevice (call fuel c v) d).1.1 = g.call v.self v.listing fuel c :=
    fun fuel => (runDevice_of_exact hworks (call_exact hc fuel c)).1.2.2 hgood
  simp only [hcall]
  cases c with
  | lookup directory name => exact Iff.rfl
  | read file offset length buffer => exact Iff.rfl
  | list directory position =>
    have hresumes := fun out => list_resumes v.self position out hgood hc.listing
    simp only [Image.call, Option.map_eq_some_iff]
    constructor
    · rintro ⟨fuel, node, h, rfl⟩
      obtain ⟨fuel', h'⟩ := (hresumes node).mp ⟨fuel, h⟩
      exact ⟨fuel', node, h', rfl⟩
    · rintro ⟨fuel, node, h, rfl⟩
      obtain ⟨fuel', h'⟩ := (hresumes node).mpr ⟨fuel, h⟩
      exact ⟨fuel', node, h', rfl⟩

/-- **What is remembered never changes a result.** The device does not fail, and the extent trees
are well formed. In any state of a session a call returns what it returns on a volume that is
mounted anew. -/
theorem session_transparent (h : Session d v log) (hworks : ∀ n, d.faults n = none)
    (hgood : ∀ n inode, (imageOf d).inode n = some inode →
      has inode.flags inodeFlagExtents = true → (imageOf d).WellFormed inode) :
    ∃ v₀ d₀, runDevice (mount v.self d.blockSize d.blockCount true true) d = (.ok v₀, d₀) ∧
      ∀ c out, (∃ fuel, (runDevice (call fuel c v) d).1.1 = some out) ↔
        ∃ fuel, (runDevice (call fuel c v₀) d₀).1.1 = some out := by
  obtain ⟨v₀, d₀, hmount⟩ := h.remounts hworks
  refine ⟨v₀, d₀, hmount, fun c out => ?_⟩
  obtain ⟨hout, hsame⟩ := runDevice_of_always (mount_sound d v.self true true)
  rw [hmount] at hout hsame
  obtain ⟨hs, hfresh, hlayout, -⟩ := hout v₀ rfl
  have hnode : (imageOf d).GoodNode c.node := fun inode hinode => hgood _ inode hinode
  rw [call_returns (h.cached hworks) hworks hnode,
    call_returns ((hfresh.cached hs hlayout).same hsame) ((works_same hsame).mpr hworks) hnode,
    hfresh.self]

/-- The extent trees of the sample are well formed. -/
theorem sampleDevice_wellFormed (n : ℕ) (inode : Inode)
    (hinode : (imageOf sampleDevice).inode n = some inode)
    (hextents : has inode.flags inodeFlagExtents = true) :
    (imageOf sampleDevice).WellFormed inode := by
  have hbound : n < 9 := by
    by_contra hge
    have hnone : (imageOf sampleDevice).inode n = none := by
      unfold Image.inode
      exact if_pos (.inr (Nat.lt_of_lt_of_le (by decide +kernel) (Nat.le_of_not_lt hge)))
    rw [hnone] at hinode
    cases hinode
  have hothers : ∀ n < 9, n ≠ 4 →
      ((imageOf sampleDevice).inode n).all (fun i => !has i.flags inodeFlagExtents) = true := by
    set_option maxRecDepth 100000 in
    decide +kernel
  -- only inode 4 has an extent tree
  by_cases hn : n = 4
  · have htree : ((imageOf sampleDevice).inode 4).map (fun i =>
        (nodeDepth i.block iBlockBytes, leafExtents i.block)) =
          some (some 0, [⟨0, 1, 3, true⟩]) := by
      set_option maxRecDepth 100000 in
      decide +kernel
    rw [← hn, hinode] at htree
    obtain ⟨hdepth, hleaf⟩ := Prod.mk.inj (Option.some.inj htree)
    refine ⟨0, hdepth, ?_, ?_⟩
    · rw [Image.runs, hleaf]
      exact ⟨Nat.le_refl 0, show 0 + 1 ≤ 2 ^ 32 by decide⟩
    · rw [hleaf]
      decide +kernel
  · have hother := hothers n hbound hn
    rw [hinode] at hother
    simp [hextents] at hother

/-- The sample with everything remembered, and mounted again. -/
theorem session_transparent_sample :
    ∃ d v log, Session d v log ∧ v.loaded = ⟨2, 0⟩ ∧ v.listing = ⟨2, 1, 12⟩ ∧
      v.extent = ⟨4, 0, 1, 3⟩ ∧
      ∃ v₀ d₀, runDevice (mount v.self d.blockSize d.blockCount true true) d = (.ok v₀, d₀) ∧
        ∀ c out, (∃ fuel, (runDevice (call fuel c v) d).1.1 = some out) ↔
          ∃ fuel, (runDevice (call fuel c v₀) d₀).1.1 = some out := by
  obtain ⟨d, v, log, hsession, hsame, hloaded, hlisting, hextent⟩ := sampleDevice_filled
  refine ⟨d, v, log, hsession, hloaded, hlisting, hextent,
    session_transparent hsession ((works_same hsame).mpr fun _ => rfl) ?_⟩
  rw [imageOf_same hsame]
  exact sampleDevice_wellFormed

/-! ## Reads -/

/-- **The states that a session goes through** from some state on: calls that return. -/
inductive Later : Device → Volume → Device → Volume → Prop
  | refl (d : Device) (v : Volume) : Later d v d v
  | call {d d' d'' : Device} {v v' v'' : Volume} {fuel : ℕ} {c : Call} {out : Outcome}
      (hbefore : Later d v d' v')
      (h : runDevice (Ext4.call fuel c v') d' = ((some out, v''), d'')) : Later d v d'' v''

theorem Later.session (h : Later d v d' v') (hs : Session d v log) :
    (∃ log', Session d' v' log') ∧ Device.Same d d' ∧ v'.self = v.self := by
  induction h with
  | refl => exact ⟨⟨log, hs⟩, Device.Same.refl _, rfl⟩
  | call hbefore h ih =>
    obtain ⟨⟨log', hs'⟩, hsame, hself⟩ := ih hs
    have hstep := hs'.step h
    exact ⟨⟨_, hs'.call h⟩, hsame.trans hstep.1, hstep.2.trans hself⟩

/-- **A file whose map is right**: its extent tree is well formed, or its pointers are in the
volume. -/
def Image.Readable (g : Image) (inode : Inode) : Prop :=
  if has inode.flags inodeFlagExtents then g.WellFormed inode
  else ∀ k, k * g.layout.blockBytes < inode.size → g.indirect inode k ≠ none

theorem Image.Readable.good {inode : Inode} (h : g.Readable inode) : g.Good inode := by
  intro hextents
  rwa [Image.Readable, if_pos hextents] at h

/-- Every block of the file has a right map. -/
theorem Image.Readable.mapped {inode : Inode} (h : g.Readable inode) {k : ℕ}
    (hk : k * g.layout.blockBytes < inode.size) : g.mapped inode k ≠ none := by
  unfold Image.mapped
  split
  · exact Option.some_ne_none 0
  unfold Image.Readable at h
  split
  · next hextents =>
    rw [if_pos hextents] at h
    obtain ⟨depth, hdepth, -⟩ := h
    rw [hdepth]
    exact Option.some_ne_none _
  · next hextents =>
    rw [if_neg hextents] at h
    exact h k hk

/-- How many bytes a read of a file gives. -/
def available (inode : Inode) (offset length : ℕ) : ℕ := min length (inode.size - offset)

theorem readInode_readable {inode : Inode} (h : g.Readable inode)
    (hfast : inode.fastSymlink = false) (offset length : ℕ) :
    g.readInode inode offset length = (⟨available inode offset length, .none⟩,
      ((g.byte inode).slice offset).trim (available inode offset length)) := by
  unfold Image.readInode available
  split
  · next hend =>
    rw [Nat.sub_eq_zero_of_le hend, Nat.min_zero, Bytes.trim_zero]
  next hend =>
  have hlength : (if inode.size - offset < length then inode.size - offset else length) =
      min length (inode.size - offset) := by
    split <;> omega
  dsimp only
  rw [hlength, if_neg (by simp [hfast]), Image.readTo,
    upTo_eq (Nat.le_refl _) (fun k hk => ?_) (.inl rfl), if_pos rfl]
  refine h.mapped (Nat.lt_of_le_of_lt (Nat.div_mul_le_self _ _) ?_)
  omega

theorem decode_of_inode {self : ℕ} {node : Vfs.Node ℕ} {inode : Inode}
    (hself : node.filesystem = self) (hinode : g.inode node.id = some inode) :
    g.decode self node = some inode := by
  have hbound : ¬(node.id = 0 ∨ g.layout.inodesCount < node.id) := by
    intro h
    rw [Image.inode, if_pos h] at hinode
    cases hinode
  rw [Image.decode, if_neg (not_or.mpr ⟨not_not.mpr hself, hbound⟩), hinode]

/-- **A read of a regular file** whose map is right. -/
theorem Session.read (h : Session d v log) (hworks : ∀ n, d.faults n = none)
    {file : Vfs.Node ℕ} {inode : Inode} (hself : file.filesystem = v.self)
    (hinode : (imageOf d).inode file.id = some inode) (hregular : inode.regular = true)
    (hreadable : (imageOf d).Readable inode) (hencrypt : has inode.flags inodeFlagEncrypt = false)
    (offset length : ℕ) {buffer : Bool} (hbuffer : buffer = true ∨ length = 0) :
    (runDevice (Ext4.read file offset length buffer v) d).1.1 =
      (⟨available inode offset length, .none⟩,
        (((imageOf d).byte inode).slice offset).trim (available inode offset length)) := by
  have hread := (runDevice_of_exact hworks
    (read_exact (h.cached hworks) file offset length buffer)).1.2 fun inode' hinode' => by
      obtain rfl : inode' = inode := Option.some.inj (hinode'.symm.trans hinode)
      exact hreadable.good
  have htype : inode.type = 8 := by simpa [Inode.regular] using hregular
  have hfast : inode.fastSymlink = false := by
    by_contra hfast
    have := ((inode_loadable hinode).fast (by simpa using hfast)).1
    simp [Inode.symlink, htype] at this
  rw [hread, Image.read, decode_of_inode hself hinode]
  dsimp only
  rw [if_neg (by simp [Inode.directory, htype]),
    if_neg (by simpa using fun h => hbuffer.resolve_right h), if_neg (by simp [hregular]),
    if_neg (by simp [hencrypt])]
  exact readInode_readable hreadable hfast offset length

/-- The bytes that a read gives. -/
def readAt (d : Device) (v : Volume) (file : Vfs.Node ℕ) (offset length : ℕ) : List UInt8 :=
  let (result, bytes) := (runDevice (Ext4.read file offset length true v) d).1.1
  (List.range result.transferred).map bytes

/-- The bytes that reads of pieces of a file give, one piece behind the other; each is read in some
state. -/
def readPieces (file : Vfs.Node ℕ) : ℕ → List (Device × Volume × ℕ) → List UInt8
  | _, [] => []
  | offset, (d, v, length) :: pieces =>
    readAt d v file offset length ++ readPieces file (offset + length) pieces

/-- The bytes of a stretch of a file, up to its end. -/
def Image.bytesIn (g : Image) (inode : Inode) (offset length : ℕ) : List UInt8 :=
  (List.range (available inode offset length)).map fun j => g.byte inode (offset + j)

theorem bytesIn_append (inode : Inode) (offset n k : ℕ) :
    g.bytesIn inode offset n ++ g.bytesIn inode (offset + n) k =
      g.bytesIn inode offset (n + k) := by
  unfold Image.bytesIn
  have hsum : available inode offset (n + k) =
      available inode offset n + available inode (offset + n) k := by
    unfold available
    omega
  rw [hsum, List.range_add, List.map_append, List.map_map]
  congr 1
  refine List.map_congr_left fun j hj => ?_
  -- behind the end of the file there is nothing
  have hfull : available inode offset n = n := by
    have := List.mem_range.mp hj
    unfold available at this ⊢
    omega
  rw [Function.comp_apply, hfull, Nat.add_assoc]

/-- **Reads give the content of the file**, in every state that a session goes through. The bytes of
a stretch of the file are the same whether they are read at once or in pieces, in whatever order and
with whatever calls in between. -/
theorem session_reads (h : Session d v log) (hworks : ∀ n, d.faults n = none)
    {file : Vfs.Node ℕ} {inode : Inode} (hself : file.filesystem = v.self)
    (hinode : (imageOf d).inode file.id = some inode) (hregular : inode.regular = true)
    (hreadable : (imageOf d).Readable inode)
    (hencrypt : has inode.flags inodeFlagEncrypt = false) :
    (∀ d' v', Later d v d' v' → ∀ offset length buffer, buffer = true ∨ length = 0 →
      (runDevice (Ext4.read file offset length buffer v') d').1.1 =
        (⟨available inode offset length, .none⟩,
          (((imageOf d).byte inode).slice offset).trim (available inode offset length))) ∧
    ∀ offset pieces, (∀ p ∈ pieces, Later d v p.1 p.2.1) → ∀ d' v', Later d v d' v' →
      readPieces file offset pieces =
        readAt d' v' file offset (pieces.map fun p => p.2.2).sum := by
  have hread : ∀ d' v', Later d v d' v' → ∀ offset length buffer, buffer = true ∨ length = 0 →
      (runDevice (Ext4.read file offset length buffer v') d').1.1 =
        (⟨available inode offset length, .none⟩,
          (((imageOf d).byte inode).slice offset).trim (available inode offset length)) := by
    intro d' v' hlater offset length buffer hbuffer
    obtain ⟨⟨log', hs⟩, hsame, hself'⟩ := hlater.session h
    rw [← imageOf_same hsame] at hinode hreadable ⊢
    exact hs.read ((works_same hsame).mpr hworks) (hself.trans hself'.symm) hinode hregular
      hreadable hencrypt offset length hbuffer
  have hat : ∀ d' v', Later d v d' v' → ∀ offset length,
      readAt d' v' file offset length = (imageOf d).bytesIn inode offset length := by
    intro d' v' hlater offset length
    rw [readAt, hread d' v' hlater offset length true (.inl rfl)]
    refine List.map_congr_left fun j hj => ?_
    rw [Bytes.trim_apply (List.mem_range.mp hj), Bytes.slice_apply]
  refine ⟨hread, fun offset pieces hpieces d' v' hlater => ?_⟩
  rw [hat d' v' hlater]
  -- piece by piece, each read in a state of its own
  induction pieces generalizing offset with
  | nil => simp [readPieces, Image.bytesIn, available]
  | cons p pieces ih =>
    obtain ⟨d₁, v₁, length⟩ := p
    obtain ⟨hfirst, hrest⟩ := List.forall_mem_cons.mp hpieces
    rw [readPieces, hat d₁ v₁ hfirst, ih (offset + length) hrest, bytesIn_append]
    rfl

/-- The file of the sample with an extent tree has three bytes, read at once or in pieces. -/
theorem session_reads_sample :
    ∃ d v log, Session d v log ∧
      (runDevice (Ext4.read (sampleNode 4 3) 0 10 true v) d).1.1.1 = ⟨3, .none⟩ ∧
      ∀ offset pieces, (∀ p ∈ pieces, Later d v p.1 p.2.1) →
        readPieces (sampleNode 4 3) offset pieces =
          readAt d v (sampleNode 4 3) offset (pieces.map fun p => p.2.2).sum := by
  obtain ⟨d, v, hsession, hsame, hself, -⟩ := sampleDevice_session
  have hfields : ((imageOf sampleDevice).inode 4).map (fun i =>
      (i.regular, i.size, has i.flags inodeFlagEncrypt, has i.flags inodeFlagExtents)) =
        some (true, 3, false, true) := by
    set_option maxRecDepth 100000 in
    decide +kernel
  obtain ⟨inode, hinode, hfields⟩ := Option.map_eq_some_iff.mp hfields
  simp only [Prod.mk.injEq] at hfields
  obtain ⟨hregular, hsize, hencrypt, hextents⟩ := hfields
  have hreadable : (imageOf sampleDevice).Readable inode := by
    rw [Image.Readable, if_pos hextents]
    exact sampleDevice_wellFormed 4 inode hinode hextents
  rw [← imageOf_same hsame] at hinode hreadable
  have hreads := session_reads hsession ((works_same hsame).mpr fun _ => rfl)
    (show (sampleNode 4 3).filesystem = v.self from hself.symm) hinode hregular hreadable hencrypt
  refine ⟨d, v, _, hsession, ?_, fun offset pieces h => hreads.2 offset pieces h d v (.refl d v)⟩
  rw [hreads.1 d v (.refl d v) 0 10 true (.inl rfl), available, hsize]
  rfl

/-- The encrypted file of the sample is refused, although its map is right. -/
theorem session_reads_encrypted :
    ∃ d v log, Session d v log ∧ (∀ n, d.faults n = none) ∧
      ∃ (file : Vfs.Node ℕ) (inode : Inode), file.filesystem = v.self ∧
        (imageOf d).inode file.id = some inode ∧ inode.regular = true ∧
        (imageOf d).Readable inode ∧ inode.size = 5 ∧
        (runDevice (Ext4.read file 0 5 true v) d).1.1.1 = ⟨0, .unsupported⟩ := by
  obtain ⟨d, v, hsession, hsame, hself, -⟩ := sampleDevice_session
  have hworks : ∀ n, d.faults n = none := (works_same hsame).mpr fun _ => rfl
  have hfields : ((imageOf sampleDevice).inode 3).map (fun i =>
      (i.regular, i.size, has i.flags inodeFlagExtents, (imageOf sampleDevice).indirect i 0)) =
        some (true, 5, false, some 0) := by
    set_option maxRecDepth 100000 in
    decide +kernel
  have hread : ((imageOf sampleDevice).read 0 (sampleNode 3 5) 0 5 true).1 = ⟨0, .unsupported⟩ := by
    set_option maxRecDepth 100000 in
    decide +kernel
  have hbytes : (imageOf sampleDevice).layout.blockBytes = 1024 := by decide +kernel
  obtain ⟨inode, hinode, hfields⟩ := Option.map_eq_some_iff.mp hfields
  simp only [Prod.mk.injEq] at hfields
  obtain ⟨hregular, hsize, hextents, hfirst⟩ := hfields
  have hreadable : (imageOf sampleDevice).Readable inode := by
    rw [Image.Readable, if_neg (by simp [hextents]), hbytes, hsize]
    intro k hk
    obtain rfl : k = 0 := by omega
    rw [hfirst]
    exact Option.some_ne_none 0
  rw [← imageOf_same hsame] at hinode hread hreadable
  refine ⟨d, v, _, hsession, hworks, sampleNode 3 5, inode, hself.symm, hinode, hregular,
    hreadable, hsize, ?_⟩
  rw [(runDevice_of_exact hworks (read_exact (hsession.cached hworks) (sampleNode 3 5) 0 5
    true)).1.2 fun inode' hinode' => ?_, hself]
  · exact hread
  · obtain rfl : inode' = inode := Option.some.inj (hinode'.symm.trans hinode)
    exact hreadable.good

end ShirleysOS.Ext4
