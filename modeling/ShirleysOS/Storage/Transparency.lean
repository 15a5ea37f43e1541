import ShirleysOS.Storage.CacheInvariant

/-!
# The block cache is transparent

Clients of a cache see one flat content, whatever the cache evicts and whichever device
accesses fail. A run records, beside the cache, the content that was put there, the buffers
that are held, and which of them their clients have modified without releasing them as dirty
yet.
-/

namespace ShirleysOS.Storage

open Lib

/-! ## Runs -/

/-- The operations of clients. -/
inductive Op
  | readBlocks (first count : ℕ) (buffer : Bytes)
  | writeBlocks (first count : ℕ) (buffer : Bytes)
  | acquire (block : ℕ) (access : Access)
  | modify (handle : Handle) (offset : ℕ) (byte : UInt8)
  | release (buffer : ℕ) (dirty : Bool)
  | sync
  | shutdown

/-- The cache, with the content that was put into it. `size` and `count` are the size and the
number of its blocks, `pending` the buffers that were modified since they were last released as
dirty. -/
structure Run where
  cache : Cache
  size : ℕ
  count : ℕ
  content : Bytes
  handles : List Handle
  pending : ℕ → Bool

/-- Some client has modified its buffer of this block and not released it yet. -/
def Run.unreleased (r : Run) (block : ℕ) : Bool :=
  r.handles.any fun h => h.block == block && r.pending h.buffer

/-- One operation. A client writes only into a buffer it holds. The modifications that were not
released when the buffers go back to the heap are dropped. -/
def Run.step (r : Run) : Op → Run
  | .readBlocks first count buffer =>
    { r with cache := (r.cache.readBlocks first count buffer).2.2 }
  | .writeBlocks first count buffer =>
    let result := r.cache.writeBlocks first count buffer
    { r with
      cache := result.2
      content := r.content.splice (first * r.size) result.1.transferred buffer }
  | .acquire block access =>
    match r.cache.acquire block access with
    | (.ok i, cache) =>
      { r with
        cache
        content := acquiredContent r.size block r.content access
        handles := ⟨i, block⟩ :: r.handles }
    | (.error _, cache) => { r with cache }
  | .modify handle offset byte =>
    if handle ∈ r.handles ∧ offset < r.size then
      { r with
        cache := r.cache.setData handle.buffer
          (Function.update (r.cache.entries handle.buffer).data offset byte)
        content := Function.update r.content (handle.block * r.size + offset) byte
        pending := Function.update r.pending handle.buffer true }
    else r
  | .release buffer dirty =>
    { r with
      cache := r.cache.release buffer dirty
      handles := giveBack r.handles buffer
      pending := if dirty then Function.update r.pending buffer false else r.pending }
  | .sync => { r with cache := r.cache.sync.2 }
  | .shutdown =>
    let result := r.cache.shutdown
    if r.cache.ready && result.1.ok then
      { r with
        cache := result.2
        content := fun x =>
          if r.unreleased (x / r.size) then result.2.device.content x else r.content x
        handles := []
        pending := fun _ => false }
    else { r with cache := result.2 }

/-- A cache that was just initialized; what was put into it is what the device holds. -/
def Run.start (c : Cache) : Run :=
  ⟨c, c.blockBytes, c.blockCount, c.device.content, [], fun _ => false⟩

/-- The cache `c` after `ops`. -/
def run (c : Cache) (ops : List Op) : Run := ops.foldl Run.step (Run.start c)

/-- What clients owe the cache before an operation: less than `2 ^ 32 - 1` handles to one buffer
when a buffer is acquired, and the last handle to a modified buffer is released as dirty. -/
def Op.Allowed (r : Run) : Op → Prop
  | .readBlocks _ _ _ => Unsaturated r.handles
  | .writeBlocks _ _ _ => Unsaturated r.handles
  | .acquire _ _ => Unsaturated r.handles
  | .release buffer dirty =>
    dirty = false → r.pending buffer = true → 1 < holders r.handles buffer
  | .modify _ _ _ => True
  | .sync => True
  | .shutdown => True

/-- All operations are allowed where they happen. -/
def AllowedFrom (r : Run) : List Op → Prop
  | [] => True
  | op :: ops => op.Allowed r ∧ AllowedFrom (r.step op) ops

/-- **Transparency** of a cache in some state of a run. -/
structure Run.Transparent (r : Run) : Prop where
  /-- What a read returns is what was put there. -/
  reads : ∀ first count buffer, (Op.readBlocks first count buffer).Allowed r →
    let result := r.cache.readBlocks first count buffer
    (∀ j < result.1.transferred, result.2.1 j = r.content (first * r.size + j)) ∧
      (result.1.ok = true → result.1.transferred = count * r.size)
  /-- What is not on the device is in the cache, waiting to be written or released. -/
  kept : ∀ b < r.count, SameBlock r.size b r.cache.device.content r.content ∨
    ∃ i < r.cache.capacity, (r.cache.entries i).valid = true ∧ (r.cache.entries i).block = b ∧
      HoldsBlock r.size b (r.cache.entries i).data r.content ∧
      ((r.cache.entries i).dirty = true ∨ r.unreleased b = true)
  /-- A successful `sync` puts everything released on the device. -/
  synced : r.cache.sync.1.ok = true → ∀ b < r.count, r.unreleased b = false →
    SameBlock r.size b r.cache.sync.2.device.content r.content
  /-- So does a successful `shutdown`. -/
  shutdown : r.cache.shutdown.1.ok = true → ∀ b < r.count, r.unreleased b = false →
    SameBlock r.size b r.cache.shutdown.2.device.content r.content

/-! ## Handles -/

/-- The cache holds a content, and the pins of its entries are the handles to them. -/
structure Tracked (c : Cache) (content : Bytes) (handles : List Handle) (pending : ℕ → Prop) :
    Prop where
  coherent : Coherent c content pending
  held : Held c handles

variable {c c' : Cache} {content content' : Bytes} {handles : List Handle}
  {pending pending' : ℕ → Prop} {i block : ℕ}

theorem acquire_tracked (h : Tracked c content handles pending)
    (hlimit : Unsaturated handles) (block : ℕ) (access : Access) :
    (∃ err c', c.acquire block access = (.error err, c') ∧ err ≠ .none ∧
        Tracked c' content handles pending ∧ Shape c c') ∨
      ∃ i c', c.acquire block access = (.ok i, c') ∧
        Tracked c' (acquiredContent c.blockBytes block content access) (⟨i, block⟩ :: handles)
          pending ∧ Shape c c' ∧ (access = .overwrite → (c'.entries i).dirty = true) := by
  have hpins := h.held.unsaturated hlimit
  have hspec := acquire_spec h.coherent hpins block access
  rcases acquire_sound h.held.sound hpins block access with
    ⟨err, c', heq, hsound, hsteady⟩ | ⟨i, c', heq, ht⟩
  · rw [heq] at hspec
    exact .inl ⟨err, c', heq, hspec.1, ⟨hspec.2, h.held.frame hsound hsteady.toFrame⟩,
      hsteady.toShape⟩
  · rw [heq] at hspec
    exact .inr ⟨i, c', heq, ⟨hspec.1, h.held.taken ht⟩, ht.shape, hspec.2⟩

/-- **Releasing a handle.** The buffer stays pending only if another client holds it, and stops
being pending only when it is marked dirty. -/
theorem release_tracked (dirty : Bool) (h : Tracked c content handles pending)
    (hheld : holders handles i ≠ 0) (hpending : ∀ j, j ≠ i → (pending' j ↔ pending j))
    (hstays : pending' i → 1 < holders handles i)
    (hstops : dirty = false → ¬ pending' i → ¬ pending i) :
    Tracked (c.release i dirty) content (giveBack handles i) pending' := by
  obtain ⟨x, hx, rfl⟩ := holders_pos.mp hheld
  obtain ⟨hi, hv, -⟩ := h.held.bound x hx
  have hco := h.coherent
  refine ⟨?_, h.held.release _ dirty⟩
  rw [Cache.release, if_pos ⟨hi, h.held.pinned hx⟩]
  refine hco.rewrite hi hv (fun _ _ _ _ => rfl) (hco.data _ hi hv) (fun hd hp => ?_) hpending
    (fun hp => ?_) hv rfl
  · obtain ⟨hclean, hd⟩ : (c.entries x.buffer).dirty = false ∧ dirty = false := by
      simpa using hd
    exact hco.clean _ hi hv hclean (hstops hd hp)
  · have := hstays hp
    rw [← h.held.pins _ hi] at this
    exact Nat.sub_ne_zero_of_lt this

theorem release_ignored {dirty : Bool} (h : Tracked c content handles pending)
    (hheld : holders handles i = 0) : c.release i dirty = c := by
  rw [Cache.release, if_neg fun hi => hi.2 ((h.held.pins i hi.1).trans hheld)]

/-- **Writing into a held buffer**: the content changes with it, and the buffer is dirty or
pending. -/
theorem setData_tracked {x : Handle} {data : Bytes} (h : Tracked c content handles pending)
    (hx : x ∈ handles)
    (hcontent : ∀ b, b ≠ x.block → SameBlock c.blockBytes b content' content)
    (hdata : HoldsBlock c.blockBytes x.block data content')
    (hpending : ∀ j, j ≠ x.buffer → (pending' j ↔ pending j))
    (hmarked : (c.entries x.buffer).dirty = true ∨ pending' x.buffer) :
    Tracked (c.setData x.buffer data) content' handles pending' := by
  obtain ⟨hi, hv, hb⟩ := h.held.bound x hx
  have hco := h.coherent
  rw [← hb] at hcontent hdata
  refine ⟨hco.rewrite hi hv hcontent hdata (fun hd hp => ?_) hpending (fun _ => ?_) hv rfl,
    h.held.setData _ data⟩
  · rcases hmarked with hdirty | hp'
    · exact absurd hd (by simp [hdirty])
    · exact absurd hp' hp
  · exact h.held.pinned hx

/-! ## Whole blocks -/

/-- The handle that a transfer takes for itself and gives back again: what was pending stays
so. -/
theorem giveBack_tracked {x : Handle} (dirty : Bool)
    (h : Tracked c content (x :: handles) pending)
    (hheld : ∀ i, pending i → holders handles i ≠ 0) :
    Tracked (c.release x.buffer dirty) content handles pending := by
  have hcount : holders (x :: handles) x.buffer = holders handles x.buffer + 1 := by
    rw [holders_cons, if_pos rfl]
  have hreleased := release_tracked (i := x.buffer) dirty h (by omega)
    (fun j _ => Iff.rfl) (fun hp => by have := hheld _ hp; omega) (fun _ hp => hp)
  rwa [giveBack_cons] at hreleased

theorem Tracked.pending_held (h : Tracked c content handles pending) :
    ∀ i, pending i → holders handles i ≠ 0 := fun i hp => by
  obtain ⟨hi, -, hpins⟩ := h.coherent.held i hp
  rwa [← h.held.pins i hi]

/-- What the loop of `read_blocks` leaves after `k` more blocks. -/
structure ReadResult (c : Cache) (content : Bytes) (handles : List Handle) (pending : ℕ → Prop)
    (first i n : ℕ) (out : Bytes) (result : Result × Bytes × Cache) (k : ℕ) : Prop where
  tracked : Tracked result.2.2 content handles pending
  shape : Shape c result.2.2
  transferred : result.1.transferred = i * c.blockBytes + k * c.blockBytes
  complete : result.1.ok = true → k = n
  before : ∀ j < i * c.blockBytes, result.2.1 j = out j
  copied : ∀ j < k * c.blockBytes,
    result.2.1 (i * c.blockBytes + j) = content ((first + i) * c.blockBytes + j)

theorem ReadResult.stopped {first n : ℕ} {out : Bytes} {result : Result} (i : ℕ)
    (h : Tracked c' content handles pending) (hshape : Shape c c')
    (htransferred : result.transferred = i * c.blockBytes) (hok : result.ok = true → n = 0) :
    ReadResult c content handles pending first i n out (result, out, c') 0 where
  tracked := h
  shape := hshape
  transferred := by rw [htransferred, Nat.zero_mul, Nat.add_zero]
  complete hr := (hok hr).symm
  before _ _ := rfl
  copied j hj := by
    rw [Nat.zero_mul] at hj
    exact absurd hj (Nat.not_lt_zero j)

theorem readLoop_spec (hlimit : Unsaturated handles) (first n : ℕ) :
    ∀ (i : ℕ) (out : Bytes) (c : Cache), Tracked c content handles pending →
      ∃ k,
        ReadResult c content handles pending first i n out (Cache.readLoop first n i out c) k := by
  induction n with
  | zero =>
    intro i out c h
    exact ⟨0, .stopped i h (Shape.refl c) rfl fun _ => rfl⟩
  | succ n ih =>
    intro i out c h
    rw [Cache.readLoop]
    rcases acquire_tracked h hlimit (first + i) .read with
      ⟨err, c', heq, herr, htracked, hshape⟩ | ⟨x, c', heq, htracked, hshape, -⟩
    · simp only [heq]
      refine ⟨0, .stopped i htracked hshape (by rw [hshape.blockBytes]) fun hok => ?_⟩
      exact absurd hok (by simp [Result.ok, herr])
    · simp only [heq]
      -- the buffer has the block before it is given back
      obtain ⟨hx, hv, hb⟩ := htracked.held.bound _ List.mem_cons_self
      have hdata := htracked.coherent.data x hx hv
      have hreleased := giveBack_tracked false htracked h.pending_held
      have hshape' := hshape.trans (release_shape c' x false)
      obtain ⟨k, hk⟩ := ih (i + 1) (out.splice (i * c'.blockBytes) c'.blockBytes
        (c'.entries x).data) _ hreleased
      have hbytes := hshape'.blockBytes
      simp only at hb hbytes
      rw [hb] at hdata
      refine ⟨k + 1, hk.tracked, hshape'.trans hk.shape, ?_, fun hok => by rw [hk.complete hok],
        fun j hj => ?_, fun j hj => ?_⟩
      · rw [hk.transferred, hbytes, Nat.succ_mul, Nat.succ_mul]
        omega
      · have hlt : j < (i + 1) * (c'.release x false).blockBytes := by
          rw [hbytes, Nat.succ_mul]
          omega
        rw [hk.before j hlt, hshape.blockBytes]
        exact Bytes.splice_outside (.inl hj)
      · rcases Nat.lt_or_ge j c.blockBytes with hlt | hge
        · have hlt' : i * c.blockBytes + j < (i + 1) * (c'.release x false).blockBytes := by
            rw [hbytes, Nat.succ_mul]
            omega
          rw [hk.before _ hlt', hshape.blockBytes, Bytes.splice_add hlt]
          exact (hdata j (by rwa [hshape.blockBytes])).trans (by rw [hshape.blockBytes]; rfl)
        · obtain ⟨j, rfl⟩ := Nat.exists_eq_add_of_le hge
          have hlt : j < k * (c'.release x false).blockBytes := by
            rw [hbytes]
            rw [Nat.succ_mul] at hj
            omega
          have := hk.copied j hlt
          rw [hbytes, Nat.succ_mul, ← Nat.add_assoc first, Nat.succ_mul] at this
          rw [← Nat.add_assoc, this, Nat.add_assoc]

/-- What the loop of `write_blocks` leaves after `k` more blocks. -/
structure WriteResult (c : Cache) (content : Bytes) (handles : List Handle) (pending : ℕ → Prop)
    (first i n : ℕ) (buffer : Bytes) (result : Result × Cache) (k : ℕ) : Prop where
  tracked : Tracked result.2
    (content.splice ((first + i) * c.blockBytes) (k * c.blockBytes)
      (buffer.slice (i * c.blockBytes))) handles pending
  shape : Shape c result.2
  transferred : result.1.transferred = i * c.blockBytes + k * c.blockBytes
  complete : result.1.ok = true → k = n

/-- The block that `write_blocks` copies into the buffer it has acquired. -/
theorem copied_tracked {x : ℕ} (data : Bytes) (h : Tracked c content handles pending)
    (hshape : Shape c c')
    (htracked : Tracked c' (acquiredContent c.blockBytes block content .overwrite)
      (⟨x, block⟩ :: handles) pending)
    (hdirty : (c'.entries x).dirty = true) :
    Tracked ((c'.setData x ((c'.entries x).data.splice 0 c'.blockBytes data)).release x true)
      (content.splice (block * c.blockBytes) c.blockBytes data) handles pending := by
  have hset : Tracked (c'.setData x ((c'.entries x).data.splice 0 c'.blockBytes data))
      (content.splice (block * c.blockBytes) c.blockBytes data) (⟨x, block⟩ :: handles)
      pending := by
    refine setData_tracked htracked List.mem_cons_self (fun b hb j hj => ?_) (fun j hj => ?_)
      (fun _ _ => Iff.rfl) (.inl hdirty)
    · rw [hshape.blockBytes] at hj ⊢
      rw [Bytes.splice_otherBlock hb hj]
      exact (acquiredContent_other .overwrite hb j hj).symm
    · rw [hshape.blockBytes] at hj ⊢
      have hcopy : (c'.entries x).data.splice 0 c.blockBytes data (0 + j) = data j :=
        Bytes.splice_add hj
      rw [Nat.zero_add] at hcopy
      rw [hcopy, Bytes.splice_add hj]
  exact giveBack_tracked true hset h.pending_held

theorem writeLoop_spec (hlimit : Unsaturated handles) (first : ℕ)
    (buffer : Bytes) (n : ℕ) :
    ∀ (i : ℕ) (content : Bytes) (c : Cache), Tracked c content handles pending →
      ∃ k, WriteResult c content handles pending first i n buffer
        (Cache.writeLoop first buffer n i c) k := by
  have hstopped : ∀ {i n : ℕ} {content : Bytes} {c c' : Cache} {result : Result},
      Tracked c' content handles pending → Shape c c' →
      result.transferred = i * c.blockBytes → (result.ok = true → n = 0) →
      WriteResult c content handles pending first i n buffer (result, c') 0 :=
    fun h hshape htransferred hok =>
      ⟨by simpa using h, hshape, by simpa using htransferred, fun hr => (hok hr).symm⟩
  induction n with
  | zero =>
    intro i content c h
    exact ⟨0, hstopped h (Shape.refl c) rfl fun _ => rfl⟩
  | succ n ih =>
    intro i content c h
    rw [Cache.writeLoop]
    rcases acquire_tracked h hlimit (first + i) .overwrite with
      ⟨err, c', heq, herr, htracked, hshape⟩ | ⟨x, c', heq, htracked, hshape, hdirty⟩
    · simp only [heq]
      refine ⟨0, hstopped htracked hshape (by rw [hshape.blockBytes]) fun hok => ?_⟩
      exact absurd hok (by simp [Result.ok, herr])
    · simp only [heq]
      have hcopied := copied_tracked (buffer.slice (i * c'.blockBytes)) h hshape htracked
        (hdirty rfl)
      obtain ⟨k, hk⟩ := ih (i + 1) _ _ hcopied
      have hshape' : Shape c ((c'.setData x ((c'.entries x).data.splice 0 c'.blockBytes
          (buffer.slice (i * c'.blockBytes)))).release x true) := by
        refine hshape.trans (Shape.trans ?_ (release_shape _ x true))
        exact ⟨rfl, rfl, rfl, rfl, rfl, rfl⟩
      have hbytes := hshape'.blockBytes
      refine ⟨k + 1, ?_, hshape'.trans hk.shape, ?_, fun hok => by rw [hk.complete hok]⟩
      · -- the blocks so far and the rest are one splice
        have hjoined : (content.splice ((first + i) * c.blockBytes) c.blockBytes
            (buffer.slice (i * c'.blockBytes))).splice ((first + (i + 1)) * c.blockBytes)
              (k * c.blockBytes) (buffer.slice ((i + 1) * c.blockBytes)) =
            content.splice ((first + i) * c.blockBytes) ((k + 1) * c.blockBytes)
              (buffer.slice (i * c.blockBytes)) := by
          rw [hshape.blockBytes, Nat.succ_mul i, ← Nat.add_assoc first, Nat.succ_mul (first + i),
            ← Bytes.slice_slice, Bytes.splice_append, Nat.succ_mul k,
            Nat.add_comm (k * c.blockBytes)]
        rw [← hjoined]
        have htrackedRest := hk.tracked
        rwa [hbytes] at htrackedRest
      · rw [hk.transferred, hbytes, Nat.succ_mul, Nat.succ_mul]
        omega

/-! ## Synchronization -/

/-- What `sync` leaves of the content; none of the entries it went over is dirty if no write
failed. -/
structure SyncResult (c : Cache) (content : Bytes) (pending : ℕ → Prop) (is : List ℕ)
    (failure : Error) (result : Result × Cache) : Prop where
  coherent : Coherent result.2 content pending
  dirty : ∀ j, (result.2.entries j).dirty = true → (c.entries j).dirty = true
  written : result.1.ok = true → failure = .none ∧
    ∀ j ∈ is, (c.entries j).valid = true → (result.2.entries j).dirty = false

theorem syncLoop_spec (is : List ℕ) : ∀ (written : ℕ) (failure : Error) (c : Cache),
    Coherent c content pending → (∀ i ∈ is, i < c.capacity) →
      SyncResult c content pending is failure (Cache.syncLoop is written failure c) := by
  induction is with
  | nil =>
    intro written failure c h _
    refine ⟨h, fun _ => id, fun hok => ⟨?_, by simp⟩⟩
    simpa [Cache.syncLoop, Result.ok] using hok
  | cons i is ih =>
    intro written failure c h his
    obtain ⟨hi, his⟩ := List.forall_mem_cons.mp his
    rw [Cache.syncLoop]
    by_cases hdirty : (c.entries i).valid = true ∧ (c.entries i).dirty = true
    · have hback := writeBack_writtenBack h.toSound i
      have hrest : ∀ j ∈ is, j < (c.writeBack i).2.capacity := fun j hj => by
        rw [hback.capacity]
        exact his j hj
      rw [if_pos (by simp [hdirty])]
      rcases writeBack_cases h hi hdirty.1 with
        ⟨hok, hcoherent, hentries⟩ | ⟨hfail, hentries, hcoherent⟩
      · -- written: the entry is clean and stays so
        simp only [hok, if_true]
        have hsync := ih (written + c.blockBytes) failure _ hcoherent hrest
        refine ⟨hsync.coherent, fun j hd => ?_, fun hr => ?_⟩
        · have hd := hsync.dirty j hd
          rw [hentries] at hd
          by_cases hji : j = i
          · exact hji ▸ hdirty.2
          · rwa [Function.update_of_ne hji] at hd
        · obtain ⟨hnone, hclean⟩ := hsync.written hr
          refine ⟨hnone, List.forall_mem_cons.mpr ⟨fun _ => ?_, fun j hj hv => ?_⟩⟩
          · by_contra hd
            have := hsync.dirty i (by simpa using hd)
            rw [hentries, Function.update_self] at this
            exact absurd this (by simp)
          · exact hclean j hj ((hback.entries j).1.trans hv)
      · -- not written: the failure is remembered
        have hsync := ih written (if failure = .none then (c.writeBack i).1.error else failure) _
          (hcoherent hdirty.2) hrest
        simp only [hfail, Bool.false_eq_true, if_false]
        refine ⟨hsync.coherent, fun j hd => ?_, fun hr => ?_⟩
        · have hd := hsync.dirty j hd
          rwa [hentries] at hd
        · obtain ⟨hnone, -⟩ := hsync.written hr
          split_ifs at hnone with hfirst
          · exact absurd hnone (Result.ok_eq_false.mp hfail)
          · exact absurd hnone hfirst
    · rw [if_neg (by simpa using hdirty)]
      have hrest := ih written failure c h his
      refine ⟨hrest.coherent, hrest.dirty, fun hok => ?_⟩
      obtain ⟨hnone, hclean⟩ := hrest.written hok
      refine ⟨hnone, List.forall_mem_cons.mpr ⟨fun hv => ?_, hclean⟩⟩
      by_contra hd
      exact hdirty ⟨hv, hrest.dirty i (by simpa using hd)⟩

theorem sync_spec (h : Coherent c content pending) :
    SyncResult c content pending (List.range c.capacity) .none c.sync :=
  syncLoop_spec _ _ _ _ h fun _ hi => List.mem_range.mp hi

/-- **A successful `sync`** puts every block on the device that no pending buffer holds. -/
theorem sync_stored (h : Coherent c content pending) (hok : c.sync.1.ok = true)
    (hb : block < c.blockCount)
    (hreleased : ∀ i < c.capacity, (c.entries i).block = block → ¬ pending i) :
    SameBlock c.blockBytes block c.sync.2.device.content content := by
  have hsync := sync_spec h
  have hback : WrittenBack c c.sync.2 := syncLoop_writtenBack _ _ _ h.toSound
  have hco := hsync.coherent
  rw [← hback.blockBytes]
  by_cases hentry : ∃ i < c.sync.2.capacity,
      (c.sync.2.entries i).valid = true ∧ (c.sync.2.entries i).block = block
  · obtain ⟨i, hi, hv, rfl⟩ := hentry
    have hi' : i < c.capacity := hback.capacity ▸ hi
    have hclean := (hsync.written hok).2 i (List.mem_range.mpr hi') ((hback.entries i).1 ▸ hv)
    exact hco.clean i hi hv hclean (hreleased i hi' (hback.entries i).2.symm)
  · refine hco.absent block (by rw [hback.blockCount]; exact hb) fun i hi hv heq => ?_
    exact hentry ⟨i, hi, hv, heq⟩

/-! ## The invariant of a run -/

/-- The invariant: the cache holds the content of the run, or it was shut down and the device
has it. -/
inductive Run.Good (r : Run) : Prop
  | active (tracked : Tracked r.cache r.content r.handles fun i => r.pending i = true)
      (size : r.size = r.cache.blockBytes) (count : r.count = r.cache.blockCount)
  | closed (ready : r.cache.ready = false) (capacity : r.cache.capacity = 0)
      (handles : r.handles = []) (pending : ∀ i, r.pending i = false)
      (stored : ∀ b < r.count, SameBlock r.size b r.cache.device.content r.content)

variable {r : Run}

/-- A pending buffer has an unreleased modification of its block. -/
theorem unreleased_of_pending (h : Tracked r.cache r.content r.handles fun i => r.pending i = true)
    (hp : r.pending i = true) : r.unreleased (r.cache.entries i).block = true := by
  obtain ⟨x, hx, rfl⟩ := holders_pos.mp (h.pending_held i hp)
  rw [Run.unreleased, List.any_eq_true]
  exact ⟨x, hx, by simp [(h.held.bound x hx).2.2, hp]⟩

/-- What is released is on the device after a successful `sync`. -/
theorem released_stored (h : Tracked r.cache r.content r.handles fun i => r.pending i = true)
    (hok : r.cache.sync.1.ok = true) (hb : block < r.cache.blockCount)
    (hreleased : r.unreleased block = false) :
    SameBlock r.cache.blockBytes block r.cache.sync.2.device.content r.content := by
  refine sync_stored h.coherent hok hb fun i _ hblock hp => ?_
  rw [← hblock, unreleased_of_pending h hp] at hreleased
  exact absurd hreleased (by simp)

theorem readBlocks_spec (h : Tracked c content handles pending)
    (hlimit : Unsaturated handles) (first count : ℕ) (buffer : Bytes) :
    Tracked (c.readBlocks first count buffer).2.2 content handles pending ∧
      Shape c (c.readBlocks first count buffer).2.2 ∧
      (∀ j < (c.readBlocks first count buffer).1.transferred,
        (c.readBlocks first count buffer).2.1 j = content (first * c.blockBytes + j)) ∧
      ((c.readBlocks first count buffer).1.ok = true →
        (c.readBlocks first count buffer).1.transferred = count * c.blockBytes) := by
  rw [Cache.readBlocks, if_neg (by simp [h.coherent.ready])]
  split_ifs
  · exact ⟨h, Shape.refl c, by simp, by simp [Result.ok]⟩
  · obtain ⟨k, hk⟩ := readLoop_spec hlimit first count 0 buffer c h
    have htransferred : (Cache.readLoop first count 0 buffer c).1.transferred =
        k * c.blockBytes := by
      rw [hk.transferred, Nat.zero_mul, Nat.zero_add]
    refine ⟨hk.tracked, hk.shape, fun j hj => ?_, fun hok => by rw [htransferred, hk.complete hok]⟩
    rw [htransferred] at hj
    have := hk.copied j hj
    rwa [Nat.zero_mul, Nat.zero_add, Nat.add_zero] at this

theorem writeBlocks_spec (h : Tracked c content handles pending)
    (hlimit : Unsaturated handles) (first count : ℕ) (buffer : Bytes) :
    Tracked (c.writeBlocks first count buffer).2
        (content.splice (first * c.blockBytes) (c.writeBlocks first count buffer).1.transferred
          buffer) handles pending ∧
      Shape c (c.writeBlocks first count buffer).2 := by
  rw [Cache.writeBlocks, if_neg (by simp [h.coherent.ready])]
  split_ifs
  · exact ⟨by simpa using h, Shape.refl c⟩
  · obtain ⟨k, hk⟩ := writeLoop_spec hlimit first buffer count 0 content c h
    have htracked := hk.tracked
    rw [Nat.zero_mul, Bytes.slice_zero, Nat.add_zero] at htracked
    rw [hk.transferred, Nat.zero_mul, Nat.zero_add]
    exact ⟨htracked, hk.shape⟩

/-- **The invariant makes the cache transparent.** -/
theorem Run.Good.transparent (h : r.Good) : r.Transparent := by
  cases h with
  | active htracked hsize hcount =>
    have hco := htracked.coherent
    refine ⟨fun first count buffer hlimit => ?_, fun b hb => ?_, fun hok b hb hreleased => ?_,
      fun hok b hb hreleased => ?_⟩
    · obtain ⟨-, -, hdata, hdone⟩ := readBlocks_spec htracked hlimit first count buffer
      rw [hsize]
      exact ⟨hdata, hdone⟩
    · rw [hcount] at hb
      rw [hsize]
      -- a block is in an entry, or the device has it
      by_cases hentry : ∃ i < r.cache.capacity, (r.cache.entries i).valid = true ∧
          (r.cache.entries i).block = b
      · obtain ⟨i, hi, hv, rfl⟩ := hentry
        by_cases hmarked : (r.cache.entries i).dirty = true ∨ r.pending i = true
        · refine .inr ⟨i, hi, hv, rfl, hco.data i hi hv, hmarked.imp_right fun hp => ?_⟩
          exact unreleased_of_pending htracked hp
        · rw [not_or] at hmarked
          exact .inl (hco.clean i hi hv (by simpa using hmarked.1) hmarked.2)
      · exact .inl (hco.absent b hb fun i hi hv heq => hentry ⟨i, hi, hv, heq⟩)
    · rw [hsize]
      exact released_stored htracked hok (hcount ▸ hb) hreleased
    · rw [hsize]
      rw [Cache.shutdown, if_neg (by simp [hco.ready])] at hok ⊢
      simp only at hok ⊢
      split_ifs at hok ⊢ with hflushed
      · exact released_stored htracked hflushed (hcount ▸ hb) hreleased
      · exact absurd hok hflushed
  | closed hready hcapacity hhandles hpending hstored =>
    have hsync : r.cache.sync = (⟨0, .none⟩, r.cache) := by
      rw [Cache.sync, hcapacity]
      rfl
    refine ⟨fun first count buffer _ => ?_, fun b hb => .inl (hstored b hb),
      fun _ b hb _ => ?_, fun _ b hb _ => ?_⟩
    · rw [Cache.readBlocks, if_pos hready]
      exact ⟨by simp, by simp [Result.ok]⟩
    · rw [hsync]
      exact hstored b hb
    · rw [Cache.shutdown, if_pos hready]
      exact hstored b hb

/-! ## One operation -/

/-- A cache that was shut down answers every operation with an error, and nothing changes. -/
theorem step_closed (h : r.Good) (hready : r.cache.ready = false) (op : Op) :
    (r.step op).Good := by
  cases h with
  | active htracked _ _ => exact absurd htracked.coherent.ready (by simp [hready])
  | closed _ hcapacity hhandles hpending hstored =>
    cases op with
    | readBlocks first count buffer =>
      simp only [Run.step, Cache.readBlocks, if_pos hready]
      exact .closed hready hcapacity hhandles hpending hstored
    | writeBlocks first count buffer =>
      simp only [Run.step, Cache.writeBlocks, if_pos hready, Bytes.splice_zero]
      exact .closed hready hcapacity hhandles hpending hstored
    | acquire block access =>
      simp only [Run.step, Cache.acquire, if_pos hready]
      exact .closed hready hcapacity hhandles hpending hstored
    | modify handle offset byte =>
      rw [Run.step, if_neg (by simp [hhandles])]
      exact .closed hready hcapacity hhandles hpending hstored
    | release buffer dirty =>
      have hcache : r.cache.release buffer dirty = r.cache := by
        rw [Cache.release, if_neg (by simp [hcapacity])]
      simp only [Run.step, hcache]
      refine .closed hready hcapacity (by simp [hhandles, giveBack]) (fun j => ?_) hstored
      cases dirty with
      | false => exact hpending j
      | true =>
        simp only [if_true]
        by_cases hj : j = buffer
        · rw [hj, Function.update_self]
        · rw [Function.update_of_ne hj]
          exact hpending j
    | sync =>
      have hsync : r.cache.sync = (⟨0, .none⟩, r.cache) := by
        rw [Cache.sync, hcapacity]
        rfl
      simp only [Run.step, hsync]
      exact .closed hready hcapacity hhandles hpending hstored
    | shutdown =>
      simp only [Run.step, Cache.shutdown, hready, Bool.false_and, Bool.false_eq_true, if_false]
      exact .closed hready hcapacity hhandles hpending hstored

section Active

variable (htracked : Tracked r.cache r.content r.handles fun i => r.pending i = true)
  (hsize : r.size = r.cache.blockBytes) (hcount : r.count = r.cache.blockCount)
include htracked hsize hcount

theorem step_acquire (block : ℕ) (access : Access)
    (hallowed : (Op.acquire block access).Allowed r) :
    (r.step (.acquire block access)).Good := by
  rw [Run.step]
  rcases acquire_tracked htracked hallowed block access with
    ⟨err, c', heq, -, htracked', hshape⟩ | ⟨i, c', heq, htracked', hshape, -⟩
  · rw [heq]
    exact .active htracked' (hsize.trans hshape.blockBytes.symm)
      (hcount.trans hshape.blockCount.symm)
  · rw [heq]
    rw [← hsize] at htracked'
    exact .active htracked' (hsize.trans hshape.blockBytes.symm)
      (hcount.trans hshape.blockCount.symm)

theorem step_modify (x : Handle) (offset : ℕ) (byte : UInt8) :
    (r.step (.modify x offset byte)).Good := by
  rw [Run.step]
  split_ifs with hheld
  · obtain ⟨hx, hoffset⟩ := hheld
    obtain ⟨hi, hv, hb⟩ := htracked.held.bound x hx
    refine .active (setData_tracked htracked hx (fun b hne j hj => ?_) (fun j hj => ?_)
      (fun j hj => ?_) (.inr ?_)) hsize hcount
    · -- a byte of one block is in no other
      have := Bytes.block_disjoint hne hj
      rw [← hsize] at this ⊢
      exact Function.update_of_ne (by omega) _ _
    · rw [← hsize] at hj ⊢
      dsimp only
      by_cases hjo : j = offset
      · rw [hjo, Function.update_self, Function.update_self]
      · rw [Function.update_of_ne hjo, Function.update_of_ne (by omega), hsize, ← hb]
        exact htracked.coherent.data x.buffer hi hv j (hsize ▸ hj)
    · simp only [Function.update_of_ne hj]
    · exact Function.update_self _ _ _
  · exact .active htracked hsize hcount

theorem step_release (buffer : ℕ) (dirty : Bool)
    (hallowed : (Op.release buffer dirty).Allowed r) : (r.step (.release buffer dirty)).Good := by
  have hshape := release_shape r.cache buffer dirty
  refine .active ?_ (hsize.trans hshape.blockBytes.symm) (hcount.trans hshape.blockCount.symm)
  simp only [Run.step]
  by_cases hheld : holders r.handles buffer = 0
  · -- nobody holds the buffer, so nothing is pending there either
    have hnot : r.pending buffer = false := by
      by_contra hp
      exact htracked.pending_held buffer (by simpa using hp) hheld
    have hpending : (if dirty = true then Function.update r.pending buffer false else r.pending) =
        r.pending := by
      split_ifs
      · rw [← hnot, Function.update_eq_self]
      · rfl
    rw [release_ignored htracked hheld, giveBack_of_not_held hheld, hpending]
    exact htracked
  · refine release_tracked dirty htracked hheld (fun j hj => ?_) (fun hp => ?_) (fun hd hp => ?_)
    · cases dirty with
      | false => rfl
      | true => simp only [if_true, Function.update_of_ne hj]
    · cases dirty with
      | false => exact hallowed rfl (by simpa using hp)
      | true => simp at hp
    · subst hd
      simpa using hp

theorem step_sync : (r.step .sync).Good := by
  have hback : WrittenBack r.cache r.cache.sync.2 :=
    syncLoop_writtenBack _ _ _ htracked.coherent.toSound
  exact .active ⟨(sync_spec htracked.coherent).coherent, htracked.held.sync⟩
    (hsize.trans hback.blockBytes.symm) (hcount.trans hback.blockCount.symm)

theorem step_shutdown : (r.step .shutdown).Good := by
  have hready := htracked.coherent.ready
  simp only [Run.step, Cache.shutdown, hready, Bool.true_eq_false, if_false, Bool.true_and]
  by_cases hok : r.cache.sync.1.ok = true
  · simp only [hok, if_true]
    refine .closed rfl rfl rfl (fun _ => rfl) fun b hb j hj => ?_
    have hblock : (b * r.size + j) / r.size = b := by
      rw [Nat.add_comm, Nat.add_mul_div_right _ _ (Nat.zero_lt_of_lt hj),
        Nat.div_eq_of_lt hj, Nat.zero_add]
    simp only [hblock]
    split_ifs with hunreleased
    · rfl
    · simp only at hb hj ⊢
      rw [hsize] at hj ⊢
      exact released_stored htracked hok (hcount ▸ hb) (by simpa using hunreleased) j hj
  · simp only [hok, Bool.false_eq_true, if_false]
    exact step_sync htracked hsize hcount

end Active

/-- **One operation** keeps the invariant. -/
theorem step_good (h : r.Good) (op : Op) (hallowed : op.Allowed r) : (r.step op).Good := by
  by_cases hready : r.cache.ready = false
  · exact step_closed h hready op
  cases h with
  | closed hclosed _ _ _ _ => exact absurd hclosed hready
  | active htracked hsize hcount =>
    cases op with
    | readBlocks first count buffer =>
      obtain ⟨htracked', hshape, -⟩ := readBlocks_spec htracked hallowed first count buffer
      exact .active htracked' (hsize.trans hshape.blockBytes.symm)
        (hcount.trans hshape.blockCount.symm)
    | writeBlocks first count buffer =>
      obtain ⟨htracked', hshape⟩ := writeBlocks_spec htracked hallowed first count buffer
      rw [← hsize] at htracked'
      exact .active htracked' (hsize.trans hshape.blockBytes.symm)
        (hcount.trans hshape.blockCount.symm)
    | acquire block access => exact step_acquire htracked hsize hcount block access hallowed
    | modify x offset byte => exact step_modify htracked hsize hcount x offset byte
    | release buffer dirty => exact step_release htracked hsize hcount buffer dirty hallowed
    | sync => exact step_sync htracked hsize hcount
    | shutdown => exact step_shutdown htracked hsize hcount

/-! ## Every run -/

theorem foldl_good (ops : List Op) : ∀ {r : Run}, r.Good → AllowedFrom r ops →
    (ops.foldl Run.step r).Good := by
  induction ops with
  | nil => exact fun h _ => h
  | cons op ops ih => exact fun h hallowed => ih (step_good h op hallowed.1) hallowed.2

theorem initializeCache_true {capacity blockBytes : ℕ} {allocated : Bool} {storage : ℕ → Bytes}
    (hinit : c.initializeCache capacity blockBytes allocated storage = (true, c')) :
    ∃ bytes, bytes % c.device.blockSize = 0 ∧
      c' = { c with
        ready := true
        entries := fun i => ⟨0, 0, storage i, 0, false, false⟩
        capacity
        blockBytes := bytes
        deviceBlocks := bytes / c.device.blockSize
        clock := 0
        hits := 0
        misses := 0 } := by
  unfold Cache.initializeCache at hinit
  dsimp only at hinit
  generalize (if blockBytes = 0 then c.device.blockSize else blockBytes) = bytes at hinit
  split_ifs at hinit with hready hsize hmultiple hlarge hheap
  iterate 5 exact absurd (congrArg Prod.fst hinit) Bool.false_ne_true
  exact ⟨bytes, by simpa using hmultiple, (Prod.mk.inj hinit).2.symm⟩

/-- With all entries empty, the content is what the device holds. -/
theorem tracked_of_empty (hready : c.ready = true)
    (hbytes : c.blockBytes = c.deviceBlocks * c.device.blockSize)
    (hentries : ∀ i, (c.entries i).valid = false ∧ (c.entries i).dirty = false ∧
      (c.entries i).pins = 0) (hpending : ∀ i, ¬ pending i) :
    Tracked c c.device.content [] pending := by
  have hempty : ∀ {i}, (c.entries i).valid ≠ true := fun {i} hv =>
    nomatch (hentries i).1.symm.trans hv
  have hheld := held_of_empty (fun hoff => nomatch hready.symm.trans hoff)
    (fun i _ => (hentries i).1) fun i _ => (hentries i).2.2
  exact ⟨⟨hheld.sound, hready, hbytes, fun i _ _ => (hentries i).2.1,
    fun _ _ hv => (hempty hv).elim, fun _ _ hv => (hempty hv).elim, fun _ _ _ _ _ => rfl,
    fun i hp => (hpending i hp).elim⟩, hheld⟩

theorem start_good {device : Device} {capacity blockBytes : ℕ} {allocated : Bool}
    {storage : ℕ → Bytes}
    (hinit : (Cache.construct device).initializeCache capacity blockBytes allocated storage =
      (true, c)) : (Run.start c).Good := by
  obtain ⟨bytes, hmultiple, rfl⟩ := initializeCache_true hinit
  refine .active (tracked_of_empty rfl ?_ (fun _ => ⟨rfl, rfl, rfl⟩) fun _ => Bool.false_ne_true)
    rfl rfl
  exact (Nat.div_mul_cancel (Nat.dvd_of_mod_eq_zero hmultiple)).symm

/-- **Transparency of the cache.** Over a device that may fail at any access, a cache that was
initialized with some capacity and block size is transparent after every sequence of operations
whose clients keep to their side. -/
theorem run_transparent (device : Device) (capacity blockBytes : ℕ) (allocated : Bool)
    (storage : ℕ → Bytes) (c : Cache)
    (hinit : (Cache.construct device).initializeCache capacity blockBytes allocated storage =
      (true, c)) (ops : List Op) (hallowed : AllowedFrom (Run.start c) ops) :
    (run c ops).Transparent :=
  (foldl_good ops (start_good hinit) hallowed).transparent

instance (handles : List Handle) : Decidable (Unsaturated handles) :=
  inferInstanceAs (Decidable (∀ h ∈ handles, holders handles h.buffer + 1 < pinLimit))

instance (r : Run) : ∀ op : Op, Decidable (op.Allowed r)
  | .readBlocks _ _ _ => inferInstanceAs (Decidable (Unsaturated r.handles))
  | .writeBlocks _ _ _ => inferInstanceAs (Decidable (Unsaturated r.handles))
  | .acquire _ _ => inferInstanceAs (Decidable (Unsaturated r.handles))
  | .release buffer dirty => inferInstanceAs
      (Decidable (dirty = false → r.pending buffer = true → 1 < holders r.handles buffer))
  | .modify _ _ _ => inferInstanceAs (Decidable True)
  | .sync => inferInstanceAs (Decidable True)
  | .shutdown => inferInstanceAs (Decidable True)

instance decidableAllowedFrom : ∀ (ops : List Op) (r : Run), Decidable (AllowedFrom r ops)
  | [], _ => inferInstanceAs (Decidable True)
  | op :: ops, r =>
    have := decidableAllowedFrom ops (r.step op)
    inferInstanceAs (Decidable (op.Allowed r ∧ AllowedFrom (r.step op) ops))

/-- A device of four blocks of two bytes whose third access fails. -/
def faulty : Device where
  blockSize := 2
  blockCount := 4
  content := fun x => UInt8.ofNat x
  faults := fun n => if n = 2 then some ⟨.deviceError, fun _ => 9, by decide⟩ else none
  accesses := 0

/-- A write, and a modification in place, through a single buffer. -/
def sampleOps : List Op :=
  [.writeBlocks 1 2 (fun j => UInt8.ofNat (40 + j)), .acquire 2 .read, .modify ⟨0, 2⟩ 1 7,
    .release 0 true, .readBlocks 0 1 (fun _ => 0), .sync]

theorem run_transparent_faulty :
    ∃ c, (Cache.construct faulty).initializeCache 1 2 true (fun _ _ => 5) = (true, c) ∧
      AllowedFrom (Run.start c) sampleOps ∧ (run c sampleOps).Transparent :=
  have hallowed : AllowedFrom (Run.start
      ((Cache.construct faulty).initializeCache 1 2 true fun _ _ => 5).2) sampleOps := by
    decide +kernel
  ⟨_, rfl, hallowed, run_transparent faulty 1 2 true (fun _ _ => 5) _ rfl sampleOps hallowed⟩

/-! ## The limits of transparency -/

/-- A device of two blocks of one byte that never fails. -/
def pair : Device := ⟨1, 2, fun _ => 0, fun _ => none, 0⟩

/-- A cache of one buffer over `pair`. -/
def pairCache : Cache :=
  ⟨pair, true, fun _ => ⟨0, 0, fun _ => 0, 0, false, false⟩, 1, 1, 1, 0, 0, 0⟩

theorem initializeCache_pair :
    (Cache.construct pair).initializeCache 1 1 true (fun _ _ => 0) = (true, pairCache) := by
  simp [Cache.initializeCache, Cache.construct, pair, pairCache]

/-- The entry of the buffer after block 0 was acquired `n` times. -/
def pinnedEntry (n : ℕ) : Entry := ⟨0, n % clockLimit, fun _ => 0, n % pinLimit, true, false⟩

/-- `pairCache` after block 0 was acquired `n + 1` times. -/
def pinnedCache (n : ℕ) : Cache :=
  { pairCache with
    device := pair.advance
    entries := Function.update pairCache.entries 0 (pinnedEntry (n + 1))
    clock := (n + 1) % clockLimit
    hits := n % clockLimit
    misses := 1 }

theorem pinnedCache_acquire (n : ℕ) :
    (pinnedCache n).acquire 0 .read = (.ok 0, pinnedCache (n + 1)) := by
  have hfind : (pinnedCache n).find 0 = some 0 := by
    simp [Cache.find, pinnedCache, pinnedEntry, pairCache, List.range_succ]
  have hcount : (pinnedCache n).blockCount = 2 := by
    simp [Cache.blockCount, pinnedCache, pairCache, pair, Device.advance]
  have hready : (pinnedCache n).ready = true := rfl
  rw [Cache.acquire, if_neg (by simp [hready]), if_neg (by rw [hcount]; decide), hfind]
  simp only [Cache.pin, Cache.setEntry, pinnedCache, Function.update_idem, Function.update_self,
    Cache.pinEntry, pinnedEntry, Nat.mod_add_mod]
  simp

theorem pairCache_acquire : pairCache.acquire 0 .read = (.ok 0, pinnedCache 0) := by
  simp [Cache.acquire, Cache.find, Cache.load, Cache.victim, Cache.victimFrom, Cache.fill,
    Cache.pin, Cache.setEntry, Cache.pinEntry, Device.readBlocks, Device.advance, Result.ok,
    Cache.blockCount, pairCache, pinnedCache, pinnedEntry, pair, List.range_succ, pinLimit,
    clockLimit]

/-- A client that acquires block 0 over and over and never releases it. -/
theorem run_replicate (n : ℕ) :
    run pairCache (List.replicate (n + 1) (.acquire 0 .read)) =
      ⟨pinnedCache n, 1, 2, fun _ => 0, List.replicate (n + 1) ⟨0, 0⟩, fun _ => false⟩ := by
  induction n with
  | zero =>
    change (Run.start pairCache).step (.acquire 0 .read) = _
    have hstart : Run.start pairCache = ⟨pairCache, 1, 2, fun _ => 0, [], fun _ => false⟩ := by
      simp [Run.start, Cache.blockCount, pairCache, pair]
    rw [hstart, Run.step, pairCache_acquire]
    rfl
  | succ n ih =>
    rw [List.replicate_succ', run, List.foldl_concat]
    rw [run] at ih
    rw [ih, Run.step, pinnedCache_acquire]
    rfl

/-- Block 0 is acquired until the pins of its buffer wrap to zero; then block 1 is acquired, and
the client that still holds block 0 writes to its buffer. -/
def wrapOps : List Op :=
  List.replicate pinLimit (.acquire 0 .read) ++ [.acquire 1 .read, .modify ⟨0, 0⟩ 0 7]

/-- The cache after the buffer was given to block 1. -/
def recycledCache : Cache :=
  { pairCache with
    device := pair.advance.advance
    entries := Function.update pairCache.entries 0
      ⟨1, pinLimit + 1, fun _ => 0, 1, true, false⟩
    clock := pinLimit + 1
    hits := pinLimit - 1
    misses := 2 }

theorem pinnedCache_recycled :
    (pinnedCache (pinLimit - 1)).acquire 1 .read = (.ok 0, recycledCache) := by
  simp [Cache.acquire, Cache.find, Cache.load, Cache.victim, Cache.victimFrom, Cache.fill,
    Cache.pin, Cache.setEntry, Cache.pinEntry, Device.readBlocks, Device.advance, Result.ok,
    Cache.blockCount, pairCache, pinnedCache, pinnedEntry, recycledCache, pair, List.range_succ,
    pinLimit, clockLimit]
  rfl

theorem run_wrapOps :
    (run pairCache wrapOps).cache = recycledCache.setData 0 (Function.update (fun _ => 0) 0 7) ∧
      (run pairCache wrapOps).content = Function.update (fun _ => 0) 0 7 := by
  have hrun := run_replicate (pinLimit - 1)
  rw [show pinLimit - 1 + 1 = pinLimit from rfl, run] at hrun
  rw [run, wrapOps, List.foldl_append, hrun]
  simp only [List.foldl_cons, List.foldl_nil, Run.step, pinnedCache_recycled]
  -- the client still has a handle to block 0
  have hheld : (⟨0, 0⟩ : Handle) ∈ (⟨0, 1⟩ : Handle) :: List.replicate pinLimit ⟨0, 0⟩ := by
    apply List.mem_cons_of_mem
    exact List.mem_replicate.mpr ⟨(Nat.two_pow_pos 32).ne', rfl⟩
  rw [if_pos ⟨hheld, Nat.one_pos⟩]
  exact ⟨rfl, rfl⟩

/-- **Without the conditions the cache is not transparent.** A modification that is not released
yet is read back although a successful `sync` has not written it; and a buffer whose pins have
wrapped is given to another block, which then reads what was written to the first one. -/
theorem not_transparent :
    (Cache.construct pair).initializeCache 1 1 true (fun _ _ => 0) = (true, pairCache) ∧
      (run pairCache [.acquire 0 .read, .modify ⟨0, 0⟩ 0 7]).cache.sync.1.ok = true ∧
      ((run pairCache [.acquire 0 .read, .modify ⟨0, 0⟩ 0 7]).cache.readBlocks 0 1
        fun _ => 0).1.ok = true ∧
      ((run pairCache [.acquire 0 .read, .modify ⟨0, 0⟩ 0 7]).cache.readBlocks 0 1
        fun _ => 0).2.1 0 ≠
        (run pairCache [.acquire 0 .read, .modify ⟨0, 0⟩ 0 7]).cache.sync.2.device.content 0 ∧
      ((run pairCache wrapOps).cache.readBlocks 1 1 fun _ => 0).1.ok = true ∧
      ((run pairCache wrapOps).cache.readBlocks 1 1 fun _ => 0).2.1 0 ≠
        (run pairCache wrapOps).content 1 := by
  obtain ⟨hcache, hcontent⟩ := run_wrapOps
  refine ⟨initializeCache_pair, by decide +kernel, by decide +kernel, by decide +kernel, ?_, ?_⟩
  · rw [hcache]
    decide +kernel
  · rw [hcache, hcontent]
    decide +kernel

end ShirleysOS.Storage
