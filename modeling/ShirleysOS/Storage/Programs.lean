import ShirleysOS.Lib.BlockIo
import ShirleysOS.Storage.Pinning

/-!
# Programs over a cache

A driver runs over a cache, which goes to the device when it has to. What is said about the buffers
and about the device is kept by every program, if loading a block and writing one back keep it and
if the program overwrites only blocks for which any bytes will do. The buffers need not hold what is
on the device: somebody else may have written it.
-/

namespace ShirleysOS.Storage

open Lib

variable {α β : Type}

/-- A program over a cache; `flush` is `sync`. -/
def runCache : Io Error α → Cache → α × Cache
  | .pure a, c => (a, c)
  | .read first count next, c =>
    let answer := c.readBlocks first count fun _ => 0
    runCache (next (if answer.1.ok then .ok answer.2.1 else .error answer.1.error)) answer.2.2
  | .write first count data next, c =>
    let answer := c.writeBlocks first count data
    runCache (next (if answer.1.ok then none else some answer.1.error)) answer.2
  | .flush next, c => runCache (next c.sync.1.ok) c.sync.2

theorem runCache_bind (p : Io Error α) (f : α → Io Error β) (c : Cache) :
    runCache (p.bind f) c = runCache (f (runCache p c).1) (runCache p c).2 := by
  induction p generalizing c with
  | pure a => rfl
  | read first count next ih => exact ih _ _
  | write first count data next ih => exact ih _ _
  | flush next ih => exact ih _ _

theorem unsaturated_nil : Unsaturated [] := fun _ h => absurd h List.not_mem_nil

/-- A program gives back every buffer that it takes. -/
theorem Held.runCache (p : Io Error α) {c : Cache} (h : Held c []) :
    Held (runCache p c).2 [] := by
  induction p generalizing c with
  | pure a => exact h
  | read first count next ih =>
    exact ih _ (readBlocks_uses h unsaturated_nil first count fun _ => 0).held
  | write first count data next ih =>
    exact ih _ (writeBlocks_uses h unsaturated_nil first count data).held
  | flush next ih => exact ih _ h.sync

/-- What is said about the buffers, by their block, bytes and modification, and about the device. -/
structure Policy where
  buffer : ℕ → Bytes → Bool → Prop
  device : Device → Prop

/-- Loading a block and writing one back keep it, on a device that works and has blocks of `size`
bytes. -/
structure Policy.Lawful (P : Policy) (size : ℕ) : Prop where
  works : ∀ {d}, P.device d → d.Works
  blockSize : ∀ {d}, P.device d → d.blockSize = size
  read : ∀ {d}, P.device d → P.device d.advance
  load : ∀ {d block}, P.device d → P.buffer block (d.content.slice (block * size)) false
  write : ∀ {d block data}, P.device d → P.buffer block data true →
    P.device { d.advance with content := d.content.splice (block * size) size data }
  stored : ∀ {block data}, P.buffer block data true → P.buffer block data false

/-- A cache for which it holds. Its blocks are those of the device. -/
structure Policy.Kept (P : Policy) (size : ℕ) (c : Cache) : Prop where
  one : c.deviceBlocks = 1
  bytes : c.blockBytes = size
  buffers : ∀ i < c.capacity, (c.entries i).valid = true →
    P.buffer (c.entries i).block (c.entries i).data (c.entries i).dirty
  device : P.device c.device

/-- A block for which any bytes will do. -/
def Policy.Free (P : Policy) (block : ℕ) : Prop := ∀ data dirty, P.buffer block data dirty

namespace Policy

variable {P : Policy} {size : ℕ} {c : Cache} {i block : ℕ} {e : Entry} {access : Access}

theorem Kept.setEntry (h : P.Kept size c)
    (he : e.valid = true → P.buffer e.block e.data e.dirty) : P.Kept size (c.setEntry i e) where
  one := h.one
  bytes := h.bytes
  buffers j hj hvalid := by
    by_cases hji : j = i
    · rw [hji, Cache.setEntry_self] at hvalid ⊢
      exact he hvalid
    · rw [Cache.setEntry_of_ne hji] at hvalid ⊢
      exact h.buffers j hj hvalid
  device := h.device

theorem Kept.counters (h : P.Kept size c) (clock hits misses : ℕ) :
    P.Kept size { c with clock, hits, misses } := ⟨h.one, h.bytes, h.buffers, h.device⟩

theorem Kept.writeBack (h : P.Kept size c) (hP : P.Lawful size) (hi : i < c.capacity)
    (hvalid : (c.entries i).valid = true) (hdirty : (c.entries i).dirty = true) :
    P.Kept size (c.writeBack i).2 := by
  have hentry := h.buffers i hi hvalid
  rw [hdirty] at hentry
  rw [Cache.writeBack]
  dsimp only
  by_cases hrange : (c.entries i).block + 1 ≤ c.device.blockCount
  · have hwritten : c.device.writeBlocks ((c.entries i).block * c.deviceBlocks) c.deviceBlocks
        (c.entries i).data = (⟨1 * c.device.blockSize, .none⟩, { c.device.advance with
          content := c.device.content.splice ((c.entries i).block * size) size
            (c.entries i).data }) := by
      rw [h.one, Nat.mul_one, Device.writeBlocks, if_neg (by omega),
        hP.works h.device _ (Nat.le_refl _), hP.blockSize h.device, Nat.one_mul]
    rw [if_pos (by rw [hwritten]; rfl), hwritten]
    have hdevice : P.Kept size { c with device := { c.device.advance with
        content := c.device.content.splice ((c.entries i).block * size) size
          (c.entries i).data } } :=
      ⟨h.one, h.bytes, h.buffers, hP.write h.device hentry⟩
    exact hdevice.setEntry fun _ => hP.stored hentry
  · have hrefused : c.device.writeBlocks ((c.entries i).block * c.deviceBlocks) c.deviceBlocks
        (c.entries i).data = (⟨0, .outOfRange⟩, c.device) := by
      rw [h.one, Nat.mul_one, Device.writeBlocks, if_pos (by omega)]
    rw [hrefused]
    exact ⟨h.one, h.bytes, h.buffers, h.device⟩

theorem writeBack_capacity : (c.writeBack i).2.capacity = c.capacity := by
  rw [Cache.writeBack]
  dsimp only
  split
  · rfl
  · rfl

/-- The outcome of a look-up: a buffer that it gives is one of the cache's and has the block. -/
structure Bound (block : ℕ) (answer : Except Error ℕ × Cache) : Prop where
  inside : ∀ k, answer.1 = .ok k → k < answer.2.capacity
  block : ∀ k, answer.1 = .ok k → (answer.2.entries k).block = block

theorem bound_ok (hi : i < c.capacity) (hblock : (c.entries i).block = block) :
    Bound block (.ok i, c) where
  inside _ hk := Except.ok.inj hk ▸ hi
  block _ hk := Except.ok.inj hk ▸ hblock

theorem bound_error {error : Error} : Bound block (.error error, c) where
  inside _ hk := nomatch hk
  block _ hk := nomatch hk

theorem Kept.fill (h : P.Kept size c) (hP : P.Lawful size) (hi : i < c.capacity)
    (hfree : access = .overwrite → P.Free block) :
    P.Kept size (c.fill i block access).2 ∧ Bound block (c.fill i block access) := by
  cases access with
  | overwrite =>
    exact ⟨h.setEntry fun _ => hfree rfl _ _,
      bound_ok hi (congrArg Entry.block Cache.setEntry_self)⟩
  | read =>
    rw [Cache.fill]
    dsimp only
    by_cases hrange : block + 1 ≤ c.device.blockCount
    · have hread : c.device.readBlocks (block * c.deviceBlocks) c.deviceBlocks =
          (⟨1 * c.device.blockSize, .none⟩, c.device.content.slice (block * size),
            c.device.advance) := by
        rw [h.one, Nat.mul_one, Device.readBlocks, if_neg (by omega),
          hP.works h.device _ (Nat.le_refl _), hP.blockSize h.device]
      have hdevice : P.Kept size { c with device := c.device.advance } :=
        ⟨h.one, h.bytes, h.buffers, hP.read h.device⟩
      rw [hread]
      exact ⟨hdevice.setEntry fun _ => hP.load h.device,
        bound_ok hi (congrArg Entry.block Cache.setEntry_self)⟩
    · have hrefused : c.device.readBlocks (block * c.deviceBlocks) c.deviceBlocks =
          (⟨0, .outOfRange⟩, fun _ => 0, c.device) := by
        rw [h.one, Nat.mul_one, Device.readBlocks, if_pos (by omega)]
      rw [hrefused]
      have hdevice : P.Kept size { c with device := c.device } := h
      exact ⟨hdevice.setEntry (fun hvalid => by cases hvalid), bound_error⟩

theorem Kept.load (h : P.Kept size c) (hP : P.Lawful size)
    (hfree : access = .overwrite → P.Free block) :
    P.Kept size (c.load block access).2 ∧ Bound block (c.load block access) := by
  rw [Cache.load]
  split
  · exact ⟨h, bound_error⟩
  · rename_i i hvictim
    obtain ⟨hi, -⟩ := victim_some hvictim
    split
    · rename_i hmodified
      obtain ⟨hvalid, hdirty⟩ := Bool.and_eq_true_iff.mp hmodified
      have hback := h.writeBack hP hi hvalid hdirty
      dsimp only
      split
      · exact hback.fill hP (writeBack_capacity.symm ▸ hi) hfree
      · exact ⟨hback, bound_error⟩
    · exact h.fill hP hi hfree

theorem Kept.pin (h : P.Kept size c) (hi : i < c.capacity) (hblock : (c.entries i).block = block)
    (hfree : access = .overwrite → P.Free block) :
    P.Kept size (c.pin i access) ∧ Bound block (.ok i, c.pin i access) := by
  rw [Cache.pin]
  refine ⟨(h.counters _ _ _).setEntry fun hvalid => ?_, bound_ok hi ?_⟩
  · cases access with
    | read => exact h.buffers i hi hvalid
    | overwrite => exact (hblock ▸ hfree rfl) _ _
  · rw [Cache.setEntry_self]
    exact hblock

/-- `acquire` keeps it, and the buffer is that of the block. -/
theorem Kept.acquire (h : P.Kept size c) (hP : P.Lawful size) (block : ℕ) (access : Access)
    (hfree : access = .overwrite → P.Free block) :
    P.Kept size (c.acquire block access).2 ∧ Bound block (c.acquire block access) := by
  rw [Cache.acquire]
  split
  · exact ⟨h, bound_error⟩
  split
  · exact ⟨h, bound_error⟩
  split
  · rename_i i hfind
    obtain ⟨hi, -, hblock⟩ := find_some hfind
    exact (h.counters c.clock ((c.hits + 1) % clockLimit) c.misses).pin hi hblock hfree
  · obtain ⟨hkept, hbound⟩ := (h.counters c.clock c.hits ((c.misses + 1) % clockLimit)).load hP
      hfree
    split
    · rename_i i loaded hload
      rw [hload] at hkept hbound
      exact hkept.pin (hbound.inside i rfl) (hbound.block i rfl) hfree
    · rename_i error loaded hload
      rw [hload] at hkept
      exact ⟨hkept, bound_error⟩

theorem Kept.release (h : P.Kept size c) {dirty : Bool}
    (hfree : dirty = true → P.Free (c.entries i).block) : P.Kept size (c.release i dirty) := by
  rw [Cache.release]
  split
  · rename_i hheld
    refine h.setEntry fun hvalid => ?_
    dsimp only
    cases dirty with
    | false =>
      rw [Bool.or_false]
      exact h.buffers i hheld.1 hvalid
    | true => exact hfree rfl _ _
  · exact h

theorem Kept.readLoop (hP : P.Lawful size) (first : ℕ) :
    ∀ n i out {c : Cache}, P.Kept size c → P.Kept size (Cache.readLoop first n i out c).2.2
  | 0, _, _, _, h => h
  | n + 1, i, out, c, h => by
    obtain ⟨hkept, -⟩ := h.acquire hP (first + i) .read fun h => by cases h
    rw [Cache.readLoop]
    split
    · rename_i e after hacquire
      rw [hacquire] at hkept
      exact hkept
    · rename_i k after hacquire
      rw [hacquire] at hkept
      exact Kept.readLoop hP first n _ _ (hkept.release fun h => by cases h)

theorem Kept.writeLoop (hP : P.Lawful size) {first : ℕ} (hfree : ∀ i, P.Free (first + i))
    (buffer : Bytes) : ∀ n i {c : Cache}, P.Kept size c →
      P.Kept size (Cache.writeLoop first buffer n i c).2
  | 0, _, _, h => h
  | n + 1, i, c, h => by
    obtain ⟨hkept, hanswer⟩ := h.acquire hP (first + i) .overwrite fun _ => hfree i
    rw [Cache.writeLoop]
    split
    · rename_i e after hacquire
      rw [hacquire] at hkept
      exact hkept
    · rename_i k after hacquire
      rw [hacquire] at hkept hanswer
      have hbound : (after.entries k).block = first + i := hanswer.block k rfl
      refine Kept.writeLoop hP hfree buffer n _ (Kept.release ?_ fun _ => ?_)
      · refine hkept.setEntry fun _ => ?_
        dsimp only
        rw [hbound]
        exact hfree i _ _
      · rw [Cache.setData, Cache.setEntry_self]
        dsimp only
        rw [hbound]
        exact hfree i

theorem Kept.syncLoop (hP : P.Lawful size) : ∀ is written failure {c : Cache}, P.Kept size c →
    (∀ i ∈ is, i < c.capacity) → P.Kept size (Cache.syncLoop is written failure c).2
  | [], _, _, _, h, _ => h
  | i :: is, written, failure, c, h, his => by
    have hrest : ∀ j ∈ is, j < c.capacity := fun j hj => his j (List.mem_cons_of_mem i hj)
    rw [Cache.syncLoop]
    split
    · rename_i hmodified
      obtain ⟨hvalid, hdirty⟩ := Bool.and_eq_true_iff.mp hmodified
      have hback := h.writeBack hP (his i List.mem_cons_self) hvalid hdirty
      have hrest' : ∀ j ∈ is, j < (c.writeBack i).2.capacity := by
        rw [writeBack_capacity]
        exact hrest
      dsimp only
      split
      · exact Kept.syncLoop hP is _ _ hback hrest'
      · exact Kept.syncLoop hP is _ _ hback hrest'
    · exact Kept.syncLoop hP is _ _ h hrest

theorem Kept.readBlocks (h : P.Kept size c) (hP : P.Lawful size) (first count : ℕ)
    (buffer : Bytes) : P.Kept size (c.readBlocks first count buffer).2.2 := by
  rw [Cache.readBlocks]
  split
  · exact h
  split
  · exact h
  · exact Kept.readLoop hP _ _ _ _ h

theorem Kept.writeBlocks (h : P.Kept size c) (hP : P.Lawful size) {first : ℕ}
    (hfree : ∀ i, P.Free (first + i)) (count : ℕ) (buffer : Bytes) :
    P.Kept size (c.writeBlocks first count buffer).2 := by
  rw [Cache.writeBlocks]
  split
  · exact h
  split
  · exact h
  · exact Kept.writeLoop hP hfree _ _ _ h

theorem Kept.sync (h : P.Kept size c) (hP : P.Lawful size) : P.Kept size c.sync.2 :=
  Kept.syncLoop hP _ _ _ h fun _ hi => List.mem_range.mp hi

theorem Kept.shutdown (h : P.Kept size c) (hP : P.Lawful size) : P.device c.shutdown.2.device := by
  rw [Cache.shutdown]
  split
  · exact h.device
  dsimp only
  split
  · exact (h.sync hP).device
  · exact (h.sync hP).device

/-- **A program keeps the policy**, if it writes only where any bytes will do. -/
theorem Kept.runCache {W : ℕ → Prop} (hP : P.Lawful size)
    (hfree : ∀ first, W first → ∀ i, P.Free (first + i)) {p : Io Error α} (hp : p.Writes W)
    (h : P.Kept size c) : P.Kept size (runCache p c).2 := by
  induction p generalizing c with
  | pure a => exact h
  | read first count next ih => exact ih _ (hp _) (h.readBlocks hP _ _ _)
  | write first count data next ih =>
    exact ih _ (hp.2 _) (h.writeBlocks hP (hfree first hp.1) _ _)
  | flush next ih => exact ih _ (hp _) (h.sync hP)

end Policy

/-! ## Two policies -/

theorem Device.Works.advance {d : Device} (h : d.Works) : d.advance.Works :=
  fun n hn => h n (Nat.le_of_succ_le hn)

/-- The device works. -/
def working (size : ℕ) : Policy := ⟨fun _ _ _ => True, fun d => d.Works ∧ d.blockSize = size⟩

theorem working_lawful (size : ℕ) : (working size).Lawful size where
  works h := h.1
  blockSize h := h.2
  read h := ⟨h.1.advance, h.2⟩
  load _ := trivial
  write h _ := ⟨h.1.advance, h.2⟩
  stored _ := trivial

/-- No buffer is modified, so the device keeps its content. -/
def unchanged (size : ℕ) (content : Bytes) : Policy where
  buffer _ _ dirty := dirty = false
  device d := d.Works ∧ d.blockSize = size ∧ d.content = content

theorem unchanged_lawful (size : ℕ) (content : Bytes) : (unchanged size content).Lawful size where
  works h := h.1
  blockSize h := h.2.1
  read h := ⟨h.1.advance, h.2⟩
  load _ := rfl
  write _ h := nomatch h
  stored h := nomatch h

/-- Every policy includes that the device works. -/
theorem Policy.Kept.working {P : Policy} {size : ℕ} {c : Cache} (h : P.Kept size c)
    (hP : P.Lawful size) : (working size).Kept size c :=
  ⟨h.one, h.bytes, fun _ _ _ => trivial, hP.works h.device, hP.blockSize h.device⟩

/-! ## A cache that serves a content -/

/-- The cache holds a content of `count` blocks, nobody holds one of its buffers, and its device
works. -/
structure Serves (P : Policy) (size count : ℕ) (content : Bytes) (c : Cache) : Prop where
  tracked : Tracked c content [] fun _ => False
  kept : P.Kept size c
  blocks : c.blockCount = count
  room : 0 < c.capacity

namespace Serves

variable {P : Policy} {size count block : ℕ} {content : Bytes} {c c' : Cache}

theorem of_shape (h : Serves P size count content c) {content' : Bytes}
    (htracked : Tracked c' content' [] fun _ => False) (hkept : P.Kept size c')
    (hshape : Shape c c') : Serves P size count content' c' :=
  ⟨htracked, hkept, hshape.blockCount.trans h.blocks, hshape.capacity ▸ h.room⟩

theorem working (h : Serves P size count content c) (hP : P.Lawful size) :
    Serves (working size) size count content c :=
  ⟨h.tracked, h.kept.working hP, h.blocks, h.room⟩

variable (hP : P.Lawful size)
include hP

theorem acquire_ok (h : Serves P size count content c) (hblock : block < count)
    (access : Access) : ∃ k, (c.acquire block access).1 = .ok k := by
  have hco := h.tracked.coherent
  have hin : block < c.blockCount := h.blocks ▸ hblock
  have hsound := hco.toSound
  rw [Cache.acquire, if_neg (by rw [hco.ready]; decide), if_neg (Nat.not_le.mpr hin)]
  cases hfind : c.find block with
  | some i => exact ⟨i, rfl⟩
  | none =>
    -- no entry is pinned, so there is a victim
    have hvictim : { c with misses := (c.misses + 1) % clockLimit }.victim ≠ none := by
      rw [ne_eq, victim_eq_none]
      exact fun hpinned => hpinned 0 h.room (h.tracked.held.pins 0 h.room)
    obtain ⟨i, hi⟩ := Option.ne_none_iff_exists'.mp hvictim
    have hload := load_ok (hsound.counters c.clock c.hits ((c.misses + 1) % clockLimit)) hco.ready
      (hP.works h.kept.device) hin hi access
    dsimp only
    rcases hloaded : Cache.load { c with misses := (c.misses + 1) % clockLimit } block access
      with ⟨result, loaded⟩
    rw [hloaded] at hload
    obtain rfl : result = .ok i := hload
    exact ⟨i, rfl⟩

omit hP in
theorem not_outOfRange (h : Serves P size count content c) (hblock : block < count)
    (hpos : 0 < size) (hsize : size < 2 ^ 64) : c.outOfRange block 1 = false := by
  have hone : ¬1 > (2 ^ 64 - 1) / size :=
    Nat.not_lt.mpr ((Nat.le_div_iff_mul_le hpos).mpr (by omega))
  rw [Cache.outOfRange, h.kept.bytes, h.blocks]
  simp only [Bool.or_eq_false_iff, decide_eq_false_iff_not]
  exact ⟨⟨by omega, by omega⟩, hone⟩

/-- **Reading a block** gives the content. -/
theorem readBlock (h : Serves P size count content c) (hblock : block < count) (hpos : 0 < size)
    (hsize : size < 2 ^ 64) (buffer : Bytes) :
    (c.readBlocks block 1 buffer).1.ok = true ∧
      Serves P size count content (c.readBlocks block 1 buffer).2.2 ∧
      HoldsBlock size block (c.readBlocks block 1 buffer).2.1 content := by
  obtain ⟨htracked, hshape, hbytes, htransferred⟩ :=
    readBlocks_spec h.tracked unsaturated_nil block 1 buffer
  have hkept := h.kept.readBlocks hP block 1 buffer
  have hok : (c.readBlocks block 1 buffer).1.ok = true := by
    obtain ⟨k, hk⟩ := h.acquire_ok hP hblock .read
    rw [Cache.readBlocks, if_neg (by rw [h.tracked.coherent.ready]; decide),
      if_neg (by rw [h.not_outOfRange hblock hpos hsize]; decide), Cache.readLoop]
    rcases hacquire : c.acquire (block + 0) .read with ⟨result, after⟩
    rw [Nat.add_zero] at hacquire
    rw [hacquire] at hk
    obtain rfl : result = .ok k := hk
    rfl
  refine ⟨hok, h.of_shape htracked hkept hshape, fun j hj => ?_⟩
  rw [h.kept.bytes] at hbytes htransferred
  exact hbytes j (by rw [htransferred hok, Nat.one_mul]; exact hj)

/-- **Writing a block** changes the content. -/
theorem writeBlock (h : Serves P size count content c) (hblock : block < count) (hpos : 0 < size)
    (hsize : size < 2 ^ 64) (hfree : ∀ i, P.Free (block + i)) (buffer : Bytes) :
    (c.writeBlocks block 1 buffer).1.ok = true ∧
      Serves P size count (content.splice (block * size) size buffer)
        (c.writeBlocks block 1 buffer).2 := by
  obtain ⟨htracked, hshape⟩ := writeBlocks_spec h.tracked unsaturated_nil block 1 buffer
  have hkept := h.kept.writeBlocks hP hfree 1 buffer
  have hdone : (c.writeBlocks block 1 buffer).1 =
      ⟨1 * (c.writeBlocks block 1 buffer).2.blockBytes, .none⟩ := by
    obtain ⟨k, hk⟩ := h.acquire_ok hP hblock .overwrite
    rw [Cache.writeBlocks, if_neg (by rw [h.tracked.coherent.ready]; decide),
      if_neg (by rw [h.not_outOfRange hblock hpos hsize]; decide), Cache.writeLoop]
    rcases hacquire : c.acquire (block + 0) .overwrite with ⟨result, after⟩
    rw [Nat.add_zero] at hacquire
    rw [hacquire] at hk
    obtain rfl : result = .ok k := hk
    rfl
  refine ⟨by rw [hdone]; rfl, h.of_shape ?_ hkept hshape⟩
  rw [hdone, hkept.bytes, Nat.one_mul, h.kept.bytes] at htracked
  exact htracked

/-- **Writing everything back**: no buffer is modified any more, and the content is on the
device. -/
theorem sync (h : Serves P size count content c) :
    c.sync.1.ok = true ∧ Serves P size count content c.sync.2 ∧
      ∀ b < count, SameBlock size b c.sync.2.device.content content := by
  have hok : c.sync.1.ok = true :=
    (syncLoop_ok_iff _ _ h.tracked.held.sound h.tracked.coherent.ready List.nodup_range
      fun i hi => List.mem_range.mp hi).mpr fun k _ =>
        hP.works h.kept.device _ (Nat.le_add_right _ _)
  have hback : WrittenBack c c.sync.2 := syncLoop_writtenBack _ _ _ h.tracked.held.sound
  have hstored : ∀ b < count, SameBlock c.blockBytes b c.sync.2.device.content content :=
    fun b hb => sync_stored h.tracked.coherent hok (h.blocks ▸ hb) fun _ _ _ => id
  rw [h.kept.bytes] at hstored
  exact ⟨hok, h.of_shape ⟨(sync_spec h.tracked.coherent).coherent, h.tracked.held.sync⟩
    (h.kept.sync hP) hback.toShape, hstored⟩

theorem runCache {α : Type} {p : Io Error α} (hp : p.Writes fun _ => False)
    (h : Serves P size count content c) : Serves P size count content (runCache p c).2 := by
  induction p generalizing c with
  | pure a => exact h
  | read first count next ih =>
    obtain ⟨htracked, hshape, -⟩ := readBlocks_spec h.tracked unsaturated_nil first count fun _ => 0
    exact ih _ (hp _) (h.of_shape htracked (h.kept.readBlocks hP _ _ _) hshape)
  | write first count data next ih => exact hp.1.elim
  | flush next ih => exact ih _ (hp _) (h.sync hP).2.1

end Serves

theorem initializeCache_false {c c' : Cache} {capacity blockBytes : ℕ} {allocated : Bool}
    {storage : ℕ → Bytes}
    (hinit : c.initializeCache capacity blockBytes allocated storage = (false, c')) : c' = c := by
  unfold Cache.initializeCache at hinit
  dsimp only at hinit
  generalize (if blockBytes = 0 then c.device.blockSize else blockBytes) = bytes at hinit
  split_ifs at hinit
  iterate 5 exact (Prod.mk.inj hinit).2.symm
  exact absurd (congrArg Prod.fst hinit).symm Bool.false_ne_true

/-- A cache that was just set up, with the blocks of its device, serves what is on the device. -/
theorem serves_initializeCache {c c' : Cache} {capacity : ℕ} {allocated : Bool}
    {storage : ℕ → Bytes} (hworks : c.device.Works)
    (hinit : c.initializeCache capacity 0 allocated storage = (true, c')) :
    Serves (unchanged c.device.blockSize c.device.content) c.device.blockSize c.device.blockCount
      c.device.content c' := by
  unfold Cache.initializeCache at hinit
  dsimp only at hinit
  rw [if_pos rfl] at hinit
  split_ifs at hinit with hready hsize hmultiple hlarge hheap
  iterate 5 exact absurd (congrArg Prod.fst hinit) Bool.false_ne_true
  obtain rfl := (Prod.mk.inj hinit).2
  have hone : c.device.blockSize / c.device.blockSize = 1 :=
    Nat.div_self (Nat.pos_of_ne_zero hsize)
  refine ⟨tracked_of_empty rfl ?_ (fun _ => ⟨rfl, rfl, rfl⟩) fun _ => id,
    ⟨hone, rfl, fun _ _ hv => (nomatch hv), hworks, rfl, rfl⟩, ?_,
    Nat.pos_of_ne_zero fun hzero => hready (.inr hzero)⟩
  · rw [hone, Nat.one_mul]
  · rw [Cache.blockCount, if_pos rfl, hone, Nat.div_one]

/-! ## Programs with a state -/

section Over

variable {σ : Type} {p : StateT σ (Io Error) α} {f : α → StateT σ (Io Error) β}
  {Q Q' : α → σ → Cache → Prop} {R : β → σ → Cache → Prop} {s : σ} {c : Cache}

/-- The outcome, the state and the cache after a program satisfy `Q`. -/
def Over (p : StateT σ (Io Error) α) (Q : α → σ → Cache → Prop) (s : σ) (c : Cache) : Prop :=
  Q (runCache (p s) c).1.1 (runCache (p s) c).1.2 (runCache (p s) c).2

theorem over_pure {a : α} : Over (pure a : StateT σ (Io Error) α) Q s c ↔ Q a s c := Iff.rfl

theorem over_bind :
    Over (p >>= f) R s c ↔ Over p (fun a s' c' => Over (f a) R s' c') s c := by
  have hrun := runCache_bind (p s) (fun out => f out.1 out.2) c
  change R (runCache ((p s).bind fun out => f out.1 out.2) c).1.1
      (runCache ((p s).bind fun out => f out.1 out.2) c).1.2
      (runCache ((p s).bind fun out => f out.1 out.2) c).2 ↔ _
  rw [hrun]
  exact Iff.rfl

theorem Over.mono (h : Over p Q s c) (hQ : ∀ a s' c', Q a s' c' → Q' a s' c') : Over p Q' s c :=
  hQ _ _ _ h

variable {P : Policy} {size count block : ℕ} {content : Bytes}

/-- A program that writes nothing, before another one. -/
theorem Serves.over_silent (hP : P.Lawful size) (h : Serves P size count content c)
    (hp : Silent p) (hf : ∀ a s' c', Serves P size count content c' → Over (f a) R s' c') :
    Over (p >>= f) R s c :=
  over_bind.mpr (hf _ _ _ (h.runCache hP (hp s)))

theorem Serves.over_readBlock (hP : P.Lawful size) (h : Serves P size count content c)
    (hblock : block < count) (hpos : 0 < size) (hsize : size < 2 ^ 64)
    {Q : Except Error Bytes → σ → Cache → Prop}
    (hQ : ∀ data c', HoldsBlock size block data content → Serves P size count content c' →
      Q (.ok data) s c') : Over (Lib.readBlocks block 1) Q s c := by
  obtain ⟨hok, hserves, hdata⟩ := h.readBlock hP hblock hpos hsize fun _ => 0
  simp only [Over, Lib.readBlocks, Storage.runCache, if_pos hok]
  exact hQ _ _ hdata hserves

theorem Serves.over_writeBlock (hP : P.Lawful size) (h : Serves P size count content c)
    (hblock : block < count) (hpos : 0 < size) (hsize : size < 2 ^ 64)
    (hfree : ∀ i, P.Free (block + i)) {data : Bytes} {Q : Option Error → σ → Cache → Prop}
    (hQ : ∀ c', Serves P size count (content.splice (block * size) size data) c' →
      Q none s c') : Over (Lib.writeBlocks block 1 data) Q s c := by
  obtain ⟨hok, hserves⟩ := h.writeBlock hP hblock hpos hsize hfree data
  simp only [Over, Lib.writeBlocks, Storage.runCache, if_pos hok]
  exact hQ _ hserves

theorem Serves.over_flush (hP : P.Lawful size) (h : Serves P size count content c)
    {Q : Bool → σ → Cache → Prop}
    (hQ : ∀ c', Serves P size count content c' →
      (∀ b < count, SameBlock size b c'.device.content content) → Q true s c') :
    Over Lib.flushBlocks Q s c := by
  obtain ⟨hok, hserves, hstored⟩ := h.sync hP
  simp only [Over, Lib.flushBlocks, Storage.runCache, hok]
  exact hQ _ hserves hstored

end Over

end ShirleysOS.Storage
