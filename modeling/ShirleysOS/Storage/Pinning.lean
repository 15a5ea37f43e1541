import ShirleysOS.Storage.Transparency

/-!
# Pinned buffers of the block cache

A client that acquires a block works directly in the cache's buffer until it releases it, so
the buffer must stay with its block meanwhile and nobody else may be given another buffer for
the same block. This is a matter of the entries alone.

The pins are a 32-bit counter, and `shutdown` does not look at them.
-/

namespace ShirleysOS.Storage

open Lib

variable {c : Cache} {d : Device} {i block : ℕ} {x : Handle} {handles : List Handle}

/-! ## Transfers -/

/-- What the loop of `read_blocks` does from block `i` on: the blocks that are held are copied
from the buffers of their holders. -/
structure ReadUses (c : Cache) (handles : List Handle) (first i : ℕ) (out : Bytes)
    (result : Result × Bytes × Cache) : Prop where
  held : Held result.2.2 handles
  steady : Steady c result.2.2
  before : ∀ j < i * c.blockBytes, result.2.1 j = out j
  copied : ∀ x ∈ handles, ∀ k, i ≤ k → first + k = x.block →
    (k + 1) * c.blockBytes ≤ result.1.transferred →
      ∀ j < c.blockBytes, result.2.1 (k * c.blockBytes + j) = (c.entries x.buffer).data j

/-- A loop that stops at block `i` has transferred nothing behind it. -/
theorem not_transferred {size i k j : ℕ} (hik : i ≤ k) (h : (k + 1) * size ≤ i * size)
    (hj : j < size) : False := by
  have := Nat.mul_le_mul_right size hik
  rw [Nat.succ_mul] at h
  omega

theorem readLoop_uses (hlimit : Unsaturated handles) (first n : ℕ) :
    ∀ (i : ℕ) (out : Bytes) (c : Cache), Held c handles →
      ReadUses c handles first i out (Cache.readLoop first n i out c) := by
  induction n with
  | zero =>
    intro i out c h
    exact ⟨h, Steady.refl c, fun _ _ => rfl, fun x _ k hik _ hk j hj =>
      (not_transferred hik hk hj).elim⟩
  | succ n ih =>
    intro i out c h
    rw [Cache.readLoop]
    rcases acquire_sound h.sound (h.unsaturated hlimit) (first + i) .read with
      ⟨err, c', heq, hsound, hsteady⟩ | ⟨y, c', heq, ht⟩
    · simp only [heq]
      refine ⟨h.frame hsound hsteady.toFrame, hsteady, fun _ _ => rfl,
        fun x _ k hik _ hk j hj => ?_⟩
      rw [hsteady.blockBytes] at hk
      exact (not_transferred hik hk hj).elim
    · simp only [heq]
      -- releasing is putting back the bytes that are there
      have hback : c'.setData y (c'.entries y).data = c' := by
        simp only [Cache.setData, Cache.setEntry, Function.update_eq_self]
      have hround := h.round ht (c'.entries y).data false
      have hframe := ht.giveBack_frame (c'.entries y).data false
      rw [hback] at hround hframe
      have hsteady : Steady c (c'.release y false) :=
        ⟨hframe, fun j hj => (release_entries c' y false j).2.2.trans (ht.data j hj (.inl rfl))⟩
      have hrest := ih (i + 1) (out.splice (i * c'.blockBytes) c'.blockBytes (c'.entries y).data)
        _ hround
      have hbytes := hframe.blockBytes
      refine ⟨hrest.held, hsteady.trans hrest.steady, fun j hj => ?_,
        fun x hx k hik hb hk j hj => ?_⟩
      · rw [hrest.before j (by rw [hbytes, Nat.succ_mul]; omega), ht.shape.blockBytes]
        exact Bytes.splice_outside (.inl hj)
      · rcases Nat.eq_or_lt_of_le hik with rfl | hlt
        · obtain rfl := h.taken_eq hx (hb ▸ ht)
          rw [hrest.before _ (by rw [hbytes, Nat.succ_mul]; omega), ht.shape.blockBytes,
            Bytes.splice_add hj]
          exact congrFun (ht.data _ (h.pinned hx) (.inl rfl)) j
        · have := hrest.copied x hx k hlt hb (by rwa [hbytes]) j (by rwa [hbytes])
          rw [hbytes] at this
          rw [this, hsteady.data _ (h.pinned hx)]

/-- What the loop of `write_blocks` does from block `i` on: the blocks that are held are put into
the buffers of their holders. -/
structure WriteUses (c : Cache) (handles : List Handle) (first i : ℕ) (buffer : Bytes)
    (result : Result × Cache) : Prop where
  held : Held result.2 handles
  frame : Frame c result.2
  before : ∀ x ∈ handles, x.block < first + i →
    (result.2.entries x.buffer).data = (c.entries x.buffer).data
  written : ∀ x ∈ handles, ∀ k, i ≤ k → first + k = x.block →
    (k + 1) * c.blockBytes ≤ result.1.transferred →
      ∀ j < c.blockBytes, (result.2.entries x.buffer).data j = buffer (k * c.blockBytes + j)

theorem writeLoop_uses (hlimit : Unsaturated handles) (first : ℕ) (buffer : Bytes) (n : ℕ) :
    ∀ (i : ℕ) (c : Cache), Held c handles →
      WriteUses c handles first i buffer (Cache.writeLoop first buffer n i c) := by
  induction n with
  | zero =>
    intro i c h
    exact ⟨h, Frame.refl c, fun _ _ _ => rfl, fun x _ k hik _ hk j hj =>
      (not_transferred hik hk hj).elim⟩
  | succ n ih =>
    intro i c h
    rw [Cache.writeLoop]
    rcases acquire_sound h.sound (h.unsaturated hlimit) (first + i) .overwrite with
      ⟨err, c', heq, hsound, hsteady⟩ | ⟨y, c', heq, ht⟩
    · simp only [heq]
      refine ⟨h.frame hsound hsteady.toFrame, hsteady.toFrame,
        fun x hx _ => hsteady.data _ (h.pinned hx), fun x _ k hik _ hk j hj => ?_⟩
      rw [hsteady.blockBytes] at hk
      exact (not_transferred hik hk hj).elim
    · simp only [heq]
      set data := (c'.entries y).data.splice 0 c'.blockBytes (buffer.slice (i * c'.blockBytes))
      have hframe := ht.giveBack_frame data true
      have hrest := ih (i + 1) _ (h.round ht data true)
      have hbytes := hframe.blockBytes
      have hdata : ∀ j, (((c'.setData y data).release y true).entries j).data =
          if j = y then data else (c'.entries j).data := by
        intro j
        rw [(release_entries _ y true j).2.2, Cache.setData]
        split_ifs with hj
        · rw [hj, Cache.setEntry_self]
        · rw [Cache.setEntry_of_ne hj]
      refine ⟨hrest.held, hframe.trans hrest.frame, fun x hx hlt => ?_,
        fun x hx k hik hb hk j hj => ?_⟩
      · -- a buffer of an earlier block is not the one taken
        have hne : x.buffer ≠ y := fun hy => by
          have hbx := ((h.taken ht).bound x (List.mem_cons_of_mem _ hx)).2.2
          rw [hy, ht.bound.2] at hbx
          omega
        rw [hrest.before x hx (by omega), hdata, if_neg hne]
        exact ht.data _ (h.pinned hx) (.inr hne)
      · rcases Nat.eq_or_lt_of_le hik with rfl | hlt
        · obtain rfl := h.taken_eq hx (hb ▸ ht)
          rw [hrest.before x hx (by omega), hdata, if_pos rfl]
          have hsplice : data (0 + j) = buffer.slice (i * c'.blockBytes) j :=
            Bytes.splice_add (by rwa [ht.shape.blockBytes])
          rw [Nat.zero_add] at hsplice
          rw [hsplice, ht.shape.blockBytes]
          rfl
        · have := hrest.written x hx k hlt hb (by rwa [hbytes]) j (by rwa [hbytes])
          rwa [hbytes] at this

/-! ## Synchronization -/

theorem syncLoop_failed : ∀ (is : List ℕ) (written : ℕ) {failure : Error} (c : Cache),
    failure ≠ .none → (Cache.syncLoop is written failure c).1.ok = false
  | [], _, _, _, h => Result.ok_eq_false.mpr h
  | i :: is, written, failure, c, h => by
    rw [Cache.syncLoop]
    dsimp only
    rw [if_neg h]
    split_ifs
    all_goals exact syncLoop_failed is _ _ h

theorem writeBack_taken (hrange : (c.entries i).block * c.deviceBlocks + c.deviceBlocks ≤
      c.device.blockCount) (hnone : c.device.faults c.device.accesses = none) :
    (c.writeBack i).1.ok = true ∧ (c.writeBack i).2.device.faults = c.device.faults ∧
      (c.writeBack i).2.device.accesses = c.device.accesses + 1 ∧
      ∀ j ≠ i, (c.writeBack i).2.entries j = c.entries j := by
  rw [Cache.writeBack, Device.writeBlocks, if_neg (Nat.not_lt.mpr hrange), hnone]
  exact ⟨rfl, rfl, rfl, fun j hj => Cache.setEntry_of_ne hj⟩

/-- `sync` succeeds exactly when the device takes every write of it. -/
theorem syncLoop_ok_iff (is : List ℕ) : ∀ (written : ℕ) {c : Cache}, Sound c → c.ready = true →
    is.Nodup → (∀ i ∈ is, i < c.capacity) →
      ((Cache.syncLoop is written .none c).1.ok = true ↔
        ∀ k < is.countP c.modified, c.device.faults (c.device.accesses + k) = none) := by
  induction is with
  | nil => exact fun _ _ _ _ _ _ => iff_of_true rfl fun _ hk => absurd hk (Nat.not_lt_zero _)
  | cons i is ih =>
    intro written c h hready hnodup his
    obtain ⟨hnew, hnodup⟩ := List.nodup_cons.mp hnodup
    obtain ⟨hi, his⟩ := List.forall_mem_cons.mp his
    rw [Cache.syncLoop, List.countP_cons]
    change (if c.modified i = true then _ else _ : Result × Cache).1.ok = true ↔ _
    by_cases hmodified : c.modified i = true
    · have hrange := device_inRange hready (h.inRange i hi (Bool.and_eq_true_iff.mp hmodified).1)
      have hback := writeBack_writtenBack h i
      rw [if_pos hmodified, if_pos hmodified, Nat.forall_lt_succ_left]
      dsimp only
      -- the next access is the write of this entry
      cases hfault : c.device.faults c.device.accesses with
      | some fault =>
        have hfailed : (c.writeBack i).1.error ≠ .none := by
          rw [Cache.writeBack, Device.writeBlocks, if_neg (Nat.not_lt.mpr hrange), hfault]
          exact fault.failed
        rw [if_neg (by simp [Result.ok, hfailed]), if_pos rfl, syncLoop_failed _ _ _ hfailed]
        exact iff_of_false Bool.false_ne_true fun hall => Option.some_ne_none _ hall.1
      | none =>
        obtain ⟨hok, hfaults, haccesses, hothers⟩ := writeBack_taken hrange hfault
        have hcount : is.countP (c.writeBack i).2.modified = is.countP c.modified :=
          List.countP_congr fun j hj => by
            rw [Cache.modified, Cache.modified, hothers j fun hji => hnew (hji ▸ hj)]
        rw [if_pos hok, ih _ hback.sound (hback.ready.trans hready) hnodup
          fun j hj => hback.capacity ▸ his j hj, hcount, hfaults, haccesses]
        refine ⟨fun hall => ⟨rfl, fun k hk => ?_⟩, fun hall k hk => ?_⟩
        · rw [← Nat.add_assoc, Nat.add_right_comm]
          exact hall k hk
        · rw [Nat.add_right_comm]
          exact hall.2 k hk
    · rw [if_neg hmodified, if_neg hmodified]
      exact ih written h hready hnodup his

/-- `shutdown` of a cache whose buffers nobody holds succeeds exactly when the device takes every
write of it. -/
theorem Held.shutdown_ok_iff (h : Held c handles) : c.shutdown.1.ok = true ↔
    ∀ k < c.dirtyCount, c.device.faults (c.device.accesses + k) = none := by
  have hsync := syncLoop_ok_iff (List.range c.capacity) 0 h.sound
  rw [Cache.shutdown]
  split
  · next hoff =>
    rw [Cache.dirtyCount, h.sound.off hoff]
    exact iff_of_true rfl fun _ hk => absurd hk (Nat.not_lt_zero _)
  · next hready =>
    refine .trans ?_ (hsync (by simpa using hready) List.nodup_range fun _ => List.mem_range.mp)
    dsimp only
    split
    · rfl
    · rfl

/-! ## A device that works -/

/-- No access to come fails. -/
def Device.Works (d : Device) : Prop := ∀ n, d.accesses ≤ n → d.faults n = none

theorem Device.Works.write (h : d.Works) {first count : ℕ} (data : Bytes)
    (hrange : first + count ≤ d.blockCount) :
    (d.writeBlocks first count data).1.ok = true ∧ (d.writeBlocks first count data).2.Works := by
  rw [writeBlocks, if_neg (by omega), h d.accesses le_rfl]
  exact ⟨rfl, fun n hn => h n (Nat.le_of_succ_le hn)⟩

theorem Device.Works.read (h : d.Works) {first count : ℕ} (hrange : first + count ≤ d.blockCount) :
    (d.readBlocks first count).1.ok = true := by
  rw [readBlocks, if_neg (by omega), h d.accesses le_rfl]
  rfl

theorem fill_ok (hready : c.ready = true) (hworks : c.device.Works) (hb : block < c.blockCount)
    (access : Access) : (c.fill i block access).1 = .ok i := by
  cases access with
  | overwrite => rfl
  | read =>
    simp only [Cache.fill]
    rw [if_pos (hworks.read (device_inRange hready hb))]

/-- With an entry nobody holds and a device that works, a miss is served. -/
theorem load_ok (h : Sound c) (hready : c.ready = true) (hworks : c.device.Works)
    (hb : block < c.blockCount) (hvictim : c.victim = some i) (access : Access) :
    (c.load block access).1 = .ok i := by
  obtain ⟨hi, -⟩ := victim_some hvictim
  simp only [Cache.load, hvictim]
  split_ifs with hdirty hok
  · have hback := writeBack_writtenBack h i
    have hv : (c.entries i).valid = true := by
      simp only [Bool.and_eq_true] at hdirty
      exact hdirty.1
    refine fill_ok (hback.ready.trans hready) ?_ (by rwa [hback.blockCount]) access
    have hwritten := (hworks.write (c.entries i).data
      (device_inRange hready (h.inRange i hi hv))).2
    simp only [Cache.writeBack]
    split_ifs <;> exact hwritten
  · have hv : (c.entries i).valid = true := by
      simp only [Bool.and_eq_true] at hdirty
      exact hdirty.1
    exact absurd (hworks.write (c.entries i).data
      (device_inRange hready (h.inRange i hi hv))).1 (by simpa [Cache.writeBack] using hok)
  · exact fill_ok hready hworks hb access

theorem victimFrom_eq_none {is : List ℕ} {oldest : Option ℕ} :
    c.victimFrom is oldest = none ↔ oldest = none ∧ ∀ i ∈ is, (c.entries i).pins ≠ 0 := by
  induction is generalizing oldest with
  | nil => simp [Cache.victimFrom]
  | cons k is ih =>
    unfold Cache.victimFrom
    split_ifs with hpins hempty
    · rw [ih]
      simp [hpins]
    · simp_all
    · cases oldest with
      | none => simp_all
      | some j =>
        dsimp only
        split_ifs <;> simp [ih]

theorem victim_eq_none : c.victim = none ↔ ∀ i < c.capacity, (c.entries i).pins ≠ 0 := by
  simp [Cache.victim, victimFrom_eq_none]

/-- **A miss is refused exactly when every entry is pinned**, the device working. -/
theorem acquire_refused (h : Sound c) (hb : block < c.blockCount) (hfind : c.find block = none)
    (hworks : c.device.Works) (access : Access) :
    (c.acquire block access).1 = .error .deviceError ↔
      ∀ i < c.capacity, (c.entries i).pins ≠ 0 := by
  have hready : c.ready = true := by
    by_contra hoff
    rw [Cache.blockCount, if_neg hoff] at hb
    omega
  unfold Cache.acquire
  rw [if_neg (by simp [hready]), if_neg (by omega), hfind]
  dsimp only
  -- the counter of misses plays no part in the choice of a victim
  set missed : Cache := { c with misses := (c.misses + 1) % clockLimit }
  have hpinned : (∀ i < c.capacity, (c.entries i).pins ≠ 0) ↔ missed.victim = none :=
    (victim_eq_none (c := missed)).symm
  rw [hpinned]
  cases hvictim : missed.victim with
  | none =>
    have hload : missed.load block access = (.error .deviceError, missed) := by
      simp only [Cache.load, hvictim]
    rw [hload]
    simp
  | some i =>
    have hload := load_ok (c := missed) (h.counters _ _ _) hready hworks hb hvictim access
    cases hresult : missed.load block access with
    | mk result loaded =>
      rw [hresult] at hload
      dsimp only at hload
      subst hload
      simp

/-! ## Runs -/

/-- The operations of a cache, and what a client does with a buffer. -/
inductive PinOp
  | initializeCache (capacity blockBytes : ℕ) (allocated : Bool) (storage : ℕ → Bytes)
  | readBlocks (first count : ℕ) (buffer : Bytes)
  | writeBlocks (first count : ℕ) (buffer : Bytes)
  | acquire (block : ℕ) (access : Access)
  | modify (buffer : ℕ) (data : Bytes)
  | release (buffer : ℕ) (dirty : Bool)
  | sync
  | shutdown

/-- A cache, with the handles that were acquired and not released. -/
structure PinRun where
  cache : Cache
  handles : List Handle

/-- One operation. A cache that is shut down takes its buffers along. -/
def PinRun.step (r : PinRun) : PinOp → PinRun
  | .initializeCache capacity blockBytes allocated storage =>
    { r with cache := (r.cache.initializeCache capacity blockBytes allocated storage).2 }
  | .readBlocks first count buffer =>
    { r with cache := (r.cache.readBlocks first count buffer).2.2 }
  | .writeBlocks first count buffer =>
    { r with cache := (r.cache.writeBlocks first count buffer).2 }
  | .acquire block access =>
    match r.cache.acquire block access with
    | (.ok i, cache) => ⟨cache, ⟨i, block⟩ :: r.handles⟩
    | (.error _, cache) => { r with cache }
  | .modify buffer data => { r with cache := r.cache.setData buffer data }
  | .release buffer dirty => ⟨r.cache.release buffer dirty, giveBack r.handles buffer⟩
  | .sync => { r with cache := r.cache.sync.2 }
  | .shutdown =>
    ⟨r.cache.shutdown.2, if r.cache.ready && r.cache.shutdown.1.ok then [] else r.handles⟩

/-- A new cache over `device` after `ops`. -/
def pinRun (device : Device) (ops : List PinOp) : PinRun :=
  ops.foldl PinRun.step ⟨Cache.construct device, []⟩

/-- Where the operation acquires a buffer, no buffer has so many handles that its pins wrap. -/
def PinOp.Allowed (r : PinRun) : PinOp → Prop
  | .readBlocks _ _ _ | .writeBlocks _ _ _ | .acquire _ _ => Unsaturated r.handles
  | _ => True

/-- All operations are allowed where they happen. -/
def PinAllowed (r : PinRun) : List PinOp → Prop
  | [] => True
  | op :: ops => op.Allowed r ∧ PinAllowed (r.step op) ops

/-- The handle's buffer is bound to the handle's block. -/
def Cache.Binds (c : Cache) (x : Handle) : Prop :=
  x.buffer < c.capacity ∧ (c.entries x.buffer).valid = true ∧ (c.entries x.buffer).block = x.block

instance (c : Cache) (x : Handle) : Decidable (c.Binds x) :=
  inferInstanceAs (Decidable (_ ∧ _ ∧ _))

/-- **What the holders of handles may rely on** in a state of a run. -/
structure PinRun.Pinned (r : PinRun) : Prop where
  /-- At most one valid entry holds a block. -/
  unique : ∀ i < r.cache.capacity, ∀ j < r.cache.capacity, (r.cache.entries i).valid = true →
    (r.cache.entries j).valid = true → (r.cache.entries i).block = (r.cache.entries j).block → i = j
  /-- A buffer stays with the block it was acquired for. -/
  bound : ∀ x ∈ r.handles, r.cache.Binds x
  /-- Who acquires the block as well gets the same buffer. -/
  acquired : ∀ x ∈ r.handles, ∀ access, (r.cache.acquire x.block access).1 = .ok x.buffer
  /-- What is read of the block is what its buffer holds. -/
  read : ∀ x ∈ r.handles, Unsaturated r.handles → ∀ first count buffer k, first + k = x.block →
    let result := r.cache.readBlocks first count buffer
    (k + 1) * r.cache.blockBytes ≤ result.1.transferred →
      ∀ j < r.cache.blockBytes,
        result.2.1 (k * r.cache.blockBytes + j) = (r.cache.entries x.buffer).data j
  /-- What is written to the block is put into its buffer. -/
  written : ∀ x ∈ r.handles, Unsaturated r.handles → ∀ first count buffer k, first + k = x.block →
    let result := r.cache.writeBlocks first count buffer
    (k + 1) * r.cache.blockBytes ≤ result.1.transferred →
      ∀ j < r.cache.blockBytes,
        (result.2.entries x.buffer).data j = buffer (k * r.cache.blockBytes + j)
  /-- A block that is not in the cache is refused exactly when every entry is pinned. -/
  refused : ∀ block < r.cache.blockCount, r.cache.find block = none → r.cache.device.Works →
    ∀ access, (r.cache.acquire block access).1 = .error .deviceError ↔
      ∀ i < r.cache.capacity, (r.cache.entries i).pins ≠ 0

variable {r : PinRun}

theorem readBlocks_uses (h : Held c handles) (hlimit : Unsaturated handles) (first count : ℕ)
    (buffer : Bytes) : ReadUses c handles first 0 buffer (c.readBlocks first count buffer) := by
  have hrefused : ∀ error, ReadUses c handles first 0 buffer (⟨0, error⟩, buffer, c) := fun error =>
    ⟨h, Steady.refl c, fun _ _ => rfl, fun x _ k hik _ hk j hj =>
      (not_transferred hik (by simpa using hk) hj).elim⟩
  unfold Cache.readBlocks
  split_ifs
  · exact hrefused _
  · exact hrefused _
  · exact readLoop_uses hlimit first count 0 buffer c h

theorem writeBlocks_uses (h : Held c handles) (hlimit : Unsaturated handles) (first count : ℕ)
    (buffer : Bytes) : WriteUses c handles first 0 buffer (c.writeBlocks first count buffer) := by
  have hrefused : ∀ error, WriteUses c handles first 0 buffer (⟨0, error⟩, c) := fun error =>
    ⟨h, Frame.refl c, fun _ _ _ => rfl, fun x _ k hik _ hk j hj =>
      (not_transferred hik (by simpa using hk) hj).elim⟩
  unfold Cache.writeBlocks
  split_ifs
  · exact hrefused _
  · exact hrefused _
  · exact writeLoop_uses hlimit first buffer count 0 c h

theorem Held.find (h : Held c handles) (hx : x ∈ handles) : c.find x.block = some x.buffer := by
  obtain ⟨hi, hv, hb⟩ := h.bound x hx
  cases hfind : c.find x.block with
  | none => exact absurd hb (find_none hfind _ hi hv)
  | some j =>
    obtain ⟨hj, hvj, hbj⟩ := find_some hfind
    rw [h.sound.unique j hj _ hi hvj hv (hbj.trans hb.symm)]

theorem Held.pinnedRun (h : Held r.cache r.handles) : r.Pinned where
  unique := h.sound.unique
  bound := h.bound
  acquired x hx access := by
    obtain ⟨hi, hv, hb⟩ := h.bound x hx
    have hrange := h.sound.inRange _ hi hv
    rw [hb] at hrange
    unfold Cache.acquire
    rw [if_neg (fun hoff => by have := h.sound.off hoff; omega), if_neg (by omega), h.find hx]
  read x hx hlimit first count buffer k hk htransferred :=
    (readBlocks_uses h hlimit first count buffer).copied x hx k (Nat.zero_le k) hk htransferred
  written x hx hlimit first count buffer k hk htransferred :=
    (writeBlocks_uses h hlimit first count buffer).written x hx k (Nat.zero_le k) hk htransferred
  refused _ hb hfind hworks := acquire_refused h.sound hb hfind hworks

theorem Held.acquireStep (h : Held r.cache r.handles) (hlimit : Unsaturated r.handles)
    (block : ℕ) (access : Access) :
    Held (r.step (.acquire block access)).cache (r.step (.acquire block access)).handles := by
  rcases acquire_sound h.sound (h.unsaturated hlimit) block access with
    ⟨err, c', heq, hsound, hsteady⟩ | ⟨i, c', heq, ht⟩
  · simp only [PinRun.step, heq]
    exact h.frame hsound hsteady.toFrame
  · simp only [PinRun.step, heq]
    exact h.taken ht

theorem Held.initializeStep (h : Held r.cache r.handles) (capacity blockBytes : ℕ)
    (allocated : Bool) (storage : ℕ → Bytes) :
    Held (r.cache.initializeCache capacity blockBytes allocated storage).2 r.handles := by
  unfold Cache.initializeCache
  by_cases hready : r.cache.ready = true ∨ capacity = 0
  · rw [if_pos hready]
    exact h
  rw [if_neg hready]
  dsimp only
  -- a cache that is not ready has no buffers to hold
  have hnone : r.handles = [] := by
    refine List.eq_nil_iff_forall_not_mem.mpr fun x hx => ?_
    have hoff := h.sound.off (by simpa using fun hr => hready (.inl hr))
    have hlt := (h.bound x hx).1
    omega
  generalize (if blockBytes = 0 then r.cache.device.blockSize else blockBytes) = bytes
  split_ifs
  · exact h
  · exact h
  · exact h
  · exact h
  · rw [hnone]
    exact held_of_empty (fun hoff => by cases hoff) (fun _ _ => rfl) fun _ _ => rfl

theorem Held.shutdownStep (h : Held r.cache r.handles) :
    Held (r.step .shutdown).cache (r.step .shutdown).handles := by
  have hsync := h.sync
  simp only [PinRun.step, Cache.shutdown]
  by_cases hready : r.cache.ready = false
  · simpa [hready] using h
  rw [if_neg hready]
  by_cases hok : r.cache.sync.1.ok = true
  · rw [if_pos hok, if_pos (by simp only [Bool.and_eq_true]; exact ⟨by simpa using hready, hok⟩)]
    exact held_of_empty (fun _ => rfl) (fun i hi => absurd hi (Nat.not_lt_zero i))
      fun i hi => absurd hi (Nat.not_lt_zero i)
  · rw [if_neg hok, if_neg (by simp [hok])]
    exact hsync

/-- **One operation keeps the handles good**, whichever accesses fail. -/
theorem Held.step (h : Held r.cache r.handles) {op : PinOp} (hallowed : op.Allowed r) :
    Held (r.step op).cache (r.step op).handles := by
  cases op with
  | initializeCache capacity blockBytes allocated storage => exact h.initializeStep _ _ _ _
  | readBlocks first count buffer => exact (readBlocks_uses h hallowed first count buffer).held
  | writeBlocks first count buffer => exact (writeBlocks_uses h hallowed first count buffer).held
  | acquire block access => exact h.acquireStep hallowed block access
  | modify buffer data => exact h.setData buffer data
  | release buffer dirty => exact h.release buffer dirty
  | sync => exact h.sync
  | shutdown => exact h.shutdownStep

theorem held_foldl : ∀ (ops : List PinOp) {r : PinRun}, Held r.cache r.handles →
    PinAllowed r ops → Held (ops.foldl PinRun.step r).cache (ops.foldl PinRun.step r).handles := by
  intro ops
  induction ops with
  | nil => exact fun h _ => h
  | cons op ops ih => exact fun h hallowed => ih (h.step hallowed.1) hallowed.2

/-- **Pinned buffers stay with their blocks.** In every state of a run over any device, in which
no buffer gets `2 ^ 32` handles, the holders may rely on what `PinRun.Pinned` says. -/
theorem pinRun_pinned (device : Device) (ops : List PinOp)
    (hallowed : PinAllowed ⟨Cache.construct device, []⟩ ops) : (pinRun device ops).Pinned :=
  (held_foldl ops (held_of_empty (fun _ => rfl) (fun i hi => absurd hi (Nat.not_lt_zero i))
    fun i hi => absurd hi (Nat.not_lt_zero i)) hallowed).pinnedRun

/-- Two blocks of one byte, of which the second cannot be read the first time. -/
def faultyPair : Device :=
  ⟨1, 2, fun _ => 7, fun n => if n = 1 then some ⟨.deviceError, fun _ => 0, by simp⟩ else none, 0⟩

/-- A cache of two entries over them: a block is held while the load of the other fails. -/
def faultyOps : List PinOp :=
  [.initializeCache 2 0 true fun _ _ => 0, .acquire 0 .read, .acquire 1 .read,
    .acquire 0 .overwrite, .release 0 true]

theorem pinRun_pinned_faultyPair : (pinRun faultyPair faultyOps).Pinned ∧
    (pinRun faultyPair faultyOps).handles = [⟨0, 0⟩] :=
  ⟨pinRun_pinned faultyPair faultyOps (by
    have hlimit : ∀ handles : List Handle, handles.length < 3 → Unsaturated handles :=
      fun handles hlen x _ =>
        (Nat.succ_lt_succ (List.countP_le_length.trans_lt hlen)).trans (by decide)
    exact ⟨trivial, hlimit _ (by decide), hlimit _ (by decide +kernel),
      hlimit _ (by decide +kernel), trivial, trivial⟩), by decide +kernel⟩

/-! ### Buffers that are lost -/

/-- A cache of one entry over `pair`, in which the first block is acquired `n` times. -/
def repeatOps (n : ℕ) : List PinOp :=
  .initializeCache 1 0 true (fun _ _ => 0) :: List.replicate n (.acquire 0 .read)

theorem pinRun_repeatOps (n : ℕ) : pinRun pair (repeatOps (n + 1)) =
    ⟨pinnedCache n, List.replicate (n + 1) ⟨0, 0⟩⟩ := by
  induction n with
  | zero =>
    have hinit : ((Cache.construct pair).initializeCache 1 0 true fun _ _ => 0) =
        (true, pairCache) := by
      simp [Cache.initializeCache, Cache.construct, pair, pairCache]
    simp only [pinRun, repeatOps, List.replicate_succ, List.replicate_zero, List.foldl_cons,
      List.foldl_nil, PinRun.step, hinit, pairCache_acquire]
  | succ n ih =>
    rw [pinRun, repeatOps, List.replicate_succ', ← List.cons_append, List.foldl_append, ← repeatOps,
      ← pinRun, ih]
    simp only [List.foldl_cons, List.foldl_nil, PinRun.step, pinnedCache_acquire]
    rfl

/-- The number of acquisitions stays a variable here, since nothing is to be evaluated that many
times. -/
theorem not_binds_of_wrapped {n : ℕ} (hn : n = pinLimit) :
    ⟨0, 0⟩ ∈ (pinRun pair (repeatOps n ++ [.acquire 1 .read])).handles ∧
      ¬ (pinRun pair (repeatOps n ++ [.acquire 1 .read])).cache.Binds ⟨0, 0⟩ := by
  have hrun := pinRun_repeatOps (pinLimit - 1)
  have hrecycled := pinnedCache_recycled
  rw [show pinLimit - 1 + 1 = pinLimit from rfl, ← hn] at hrun
  rw [← hn] at hrecycled
  have hlast : pinRun pair (repeatOps n ++ [.acquire 1 .read]) =
      ⟨recycledCache, ⟨0, 1⟩ :: List.replicate n ⟨0, 0⟩⟩ := by
    rw [pinRun, List.foldl_append, ← pinRun, hrun]
    simp only [List.foldl_cons, List.foldl_nil, PinRun.step, hrecycled]
  rw [hlast]
  refine ⟨List.mem_cons_of_mem _ (List.mem_replicate.mpr ⟨?_, rfl⟩), fun hbinds => ?_⟩
  · exact hn ▸ (Nat.two_pow_pos 32).ne'
  · cases (show (1 : ℕ) = 0 from hbinds.2.2)

/-- **Two ways to lose a buffer.** After `2 ^ 32` acquisitions that nobody released, the buffer is
given to another block; and a cache that is shut down does not keep the buffer of the holder. -/
theorem not_pinned :
    (⟨0, 0⟩ ∈ (pinRun pair (repeatOps (2 ^ 32) ++ [.acquire 1 .read])).handles ∧
      ¬ (pinRun pair (repeatOps (2 ^ 32) ++ [.acquire 1 .read])).cache.Binds ⟨0, 0⟩) ∧
    (⟨0, 0⟩ ∈ (pinRun pair (repeatOps 1)).handles ∧
      (pinRun pair (repeatOps 1)).cache.shutdown.1.ok = true ∧
      ¬ (pinRun pair (repeatOps 1)).cache.shutdown.2.Binds ⟨0, 0⟩) := by
  refine ⟨not_binds_of_wrapped ?_, by decide +kernel, by decide +kernel, by decide +kernel⟩
  exact rfl

end ShirleysOS.Storage
