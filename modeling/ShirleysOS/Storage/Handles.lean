import ShirleysOS.Storage.BlockCache

/-!
# The entries of the block cache and the handles to them

What the operations do to the entries alone: it does not depend on what the clients write, on how
they release, or on which device accesses fail. An entry that is being recycled is invalid for a
moment, and a failed load leaves it so, but it is never pinned then.
-/

namespace ShirleysOS.Storage

open Lib

/-- The parts of a cache that are fixed once it is initialized. -/
structure Shape (c c' : Cache) : Prop where
  ready : c'.ready = c.ready
  capacity : c'.capacity = c.capacity
  blockBytes : c'.blockBytes = c.blockBytes
  deviceBlocks : c'.deviceBlocks = c.deviceBlocks
  blockSize : c'.device.blockSize = c.device.blockSize
  deviceCount : c'.device.blockCount = c.device.blockCount

/-- What the operations leave alone: the shape of the cache, the pins, and what a pinned buffer
is bound to. -/
structure Frame (c c' : Cache) : Prop extends Shape c c' where
  pins : ∀ j, (c'.entries j).pins = (c.entries j).pins
  bound : ∀ j, (c.entries j).pins ≠ 0 →
    (c'.entries j).block = (c.entries j).block ∧ (c'.entries j).valid = (c.entries j).valid

/-- The pinned buffers keep their block and their bytes. -/
structure Steady (c c' : Cache) : Prop extends Frame c c' where
  data : ∀ j, (c.entries j).pins ≠ 0 → (c'.entries j).data = (c.entries j).data

/-- **The invariant of the entries.** -/
structure Sound (c : Cache) : Prop where
  off : c.ready = false → c.capacity = 0
  inRange : ∀ i < c.capacity, (c.entries i).valid = true → (c.entries i).block < c.blockCount
  unique : ∀ i < c.capacity, ∀ j < c.capacity, (c.entries i).valid = true →
    (c.entries j).valid = true → (c.entries i).block = (c.entries j).block → i = j
  idle : ∀ i < c.capacity, (c.entries i).valid = false → (c.entries i).pins = 0

variable {c c' c'' : Cache} {i j block : ℕ} {e : Entry}

theorem Shape.refl (c : Cache) : Shape c c := ⟨rfl, rfl, rfl, rfl, rfl, rfl⟩

theorem Shape.trans (h : Shape c c') (h' : Shape c' c'') : Shape c c'' :=
  ⟨h'.ready.trans h.ready, h'.capacity.trans h.capacity, h'.blockBytes.trans h.blockBytes,
    h'.deviceBlocks.trans h.deviceBlocks, h'.blockSize.trans h.blockSize,
    h'.deviceCount.trans h.deviceCount⟩

theorem Shape.blockCount (h : Shape c c') : c'.blockCount = c.blockCount := by
  rw [Cache.blockCount, Cache.blockCount, h.ready, h.deviceCount, h.deviceBlocks]

theorem Frame.refl (c : Cache) : Frame c c := ⟨Shape.refl c, fun _ => rfl, fun _ _ => ⟨rfl, rfl⟩⟩

theorem Frame.trans (h : Frame c c') (h' : Frame c' c'') : Frame c c'' where
  toShape := h.toShape.trans h'.toShape
  pins j := (h'.pins j).trans (h.pins j)
  bound j hj := by
    have hj' : (c'.entries j).pins ≠ 0 := by rwa [h.pins]
    exact ⟨(h'.bound j hj').1.trans (h.bound j hj).1, (h'.bound j hj').2.trans (h.bound j hj).2⟩

theorem Steady.refl (c : Cache) : Steady c c := ⟨Frame.refl c, fun _ _ => rfl⟩

theorem Steady.trans (h : Steady c c') (h' : Steady c' c'') : Steady c c'' :=
  ⟨h.toFrame.trans h'.toFrame, fun j hj =>
    (h'.data j (by rwa [h.pins j])).trans (h.data j hj)⟩

theorem Steady.counters (c : Cache) (clock hits misses : ℕ) :
    Steady c { c with clock, hits, misses } :=
  ⟨⟨⟨rfl, rfl, rfl, rfl, rfl, rfl⟩, fun _ => rfl, fun _ _ => ⟨rfl, rfl⟩⟩, fun _ _ => rfl⟩

theorem Steady.device {d : Device} (hsize : d.blockSize = c.device.blockSize)
    (hcount : d.blockCount = c.device.blockCount) : Steady c { c with device := d } :=
  ⟨⟨⟨rfl, rfl, rfl, rfl, hsize, hcount⟩, fun _ => rfl, fun _ _ => ⟨rfl, rfl⟩⟩, fun _ _ => rfl⟩

namespace Cache

@[simp] theorem setEntry_self : (c.setEntry i e).entries i = e := Function.update_self _ _ _

theorem setEntry_of_ne (h : j ≠ i) : (c.setEntry i e).entries j = c.entries j :=
  Function.update_of_ne h _ _

@[simp] theorem setEntry_setEntry {e' : Entry} :
    (c.setEntry i e).setEntry i e' = c.setEntry i e' := by
  simp only [setEntry, Function.update_idem]

/-- What a changed entry keeps, all entries keep. -/
theorem setEntry_keeps {β : Type} (f : Entry → β) (h : f e = f (c.entries i)) (j : ℕ) :
    f ((c.setEntry i e).entries j) = f (c.entries j) := by
  by_cases hji : j = i
  · rw [hji, setEntry_self, h]
  · rw [setEntry_of_ne hji]

end Cache

theorem Steady.keep (hblock : e.block = (c.entries i).block)
    (hvalid : e.valid = (c.entries i).valid) (hpins : e.pins = (c.entries i).pins)
    (hdata : e.data = (c.entries i).data) : Steady c (c.setEntry i e) :=
  ⟨⟨⟨rfl, rfl, rfl, rfl, rfl, rfl⟩, Cache.setEntry_keeps Entry.pins hpins, fun j _ =>
    ⟨Cache.setEntry_keeps Entry.block hblock j, Cache.setEntry_keeps Entry.valid hvalid j⟩⟩,
    fun j _ => Cache.setEntry_keeps Entry.data hdata j⟩

/-- A change to an entry nobody holds is not seen by those who hold one. -/
theorem Steady.setEntry (hpins : (c.entries i).pins = 0) (hfree : e.pins = 0) :
    Steady c (c.setEntry i e) := by
  have hother : ∀ j, (c.entries j).pins ≠ 0 → (c.setEntry i e).entries j = c.entries j :=
    fun j hj => Cache.setEntry_of_ne fun hji => hj (hji ▸ hpins)
  refine ⟨⟨⟨rfl, rfl, rfl, rfl, rfl, rfl⟩,
    Cache.setEntry_keeps Entry.pins (hfree.trans hpins.symm), fun j hj => ?_⟩,
    fun j hj => by rw [hother j hj]⟩
  rw [hother j hj]
  exact ⟨rfl, rfl⟩

/-! ## The invariant under a change of one entry or of the device -/

theorem Sound.setEntry (h : Sound c)
    (hvalid : i < c.capacity → e.valid = true → e.block < c.blockCount ∧
      ∀ j < c.capacity, j ≠ i → (c.entries j).valid = true → (c.entries j).block ≠ e.block)
    (hidle : i < c.capacity → e.valid = false → e.pins = 0) : Sound (c.setEntry i e) where
  off := h.off
  inRange j hj hv := by
    by_cases hji : j = i
    · subst hji
      rw [Cache.setEntry_self] at hv ⊢
      exact (hvalid hj hv).1
    · rw [Cache.setEntry_of_ne hji] at hv ⊢
      exact h.inRange j hj hv
  unique j hj k hk hvj hvk heq := by
    -- the new entry against the others, which have other blocks
    by_cases hji : j = i <;> by_cases hki : k = i
    · rw [hji, hki]
    · subst hji
      rw [Cache.setEntry_self] at hvj heq
      rw [Cache.setEntry_of_ne hki] at hvk heq
      exact absurd heq.symm ((hvalid hj hvj).2 k hk hki hvk)
    · subst hki
      rw [Cache.setEntry_self] at hvk heq
      rw [Cache.setEntry_of_ne hji] at hvj heq
      exact absurd heq ((hvalid hk hvk).2 j hj hji hvj)
    · rw [Cache.setEntry_of_ne hji] at hvj heq
      rw [Cache.setEntry_of_ne hki] at hvk heq
      exact h.unique j hj k hk hvj hvk heq
  idle j hj hv := by
    by_cases hji : j = i
    · subst hji
      rw [Cache.setEntry_self] at hv ⊢
      exact hidle hj hv
    · rw [Cache.setEntry_of_ne hji] at hv ⊢
      exact h.idle j hj hv

/-- An entry that keeps its block may change in all other respects. -/
theorem Sound.keep (h : Sound c) (hblock : e.block = (c.entries i).block)
    (hvalid : e.valid = (c.entries i).valid)
    (hidle : i < c.capacity → e.valid = false → e.pins = 0) : Sound (c.setEntry i e) := by
  refine h.setEntry (fun hi hv => ?_) hidle
  rw [hvalid] at hv
  rw [hblock]
  exact ⟨h.inRange i hi hv, fun j hj hji hvj heq => hji (h.unique j hj i hi hvj hv heq)⟩

theorem Sound.device {d : Device} (h : Sound c) (hcount : d.blockCount = c.device.blockCount) :
    Sound { c with device := d } where
  off := h.off
  inRange i hi hv := by
    rw [Cache.blockCount, hcount]
    exact h.inRange i hi hv
  unique := h.unique
  idle := h.idle

theorem Sound.counters (h : Sound c) (clock hits misses : ℕ) :
    Sound { c with clock, hits, misses } := ⟨h.off, h.inRange, h.unique, h.idle⟩

/-! ## Writing back -/

theorem Device.readBlocks_geometry (d : Device) (first count : ℕ) :
    (d.readBlocks first count).2.2.blockSize = d.blockSize ∧
      (d.readBlocks first count).2.2.blockCount = d.blockCount := by
  unfold readBlocks
  split_ifs
  · exact ⟨rfl, rfl⟩
  · cases d.faults d.accesses <;> exact ⟨rfl, rfl⟩

theorem Device.writeBlocks_geometry (d : Device) (first count : ℕ) (data : Bytes) :
    (d.writeBlocks first count data).2.blockSize = d.blockSize ∧
      (d.writeBlocks first count data).2.blockCount = d.blockCount := by
  unfold writeBlocks
  split_ifs
  · exact ⟨rfl, rfl⟩
  · cases d.faults d.accesses <;> exact ⟨rfl, rfl⟩

/-- What writing back leaves: sound entries, each with its block. -/
structure WrittenBack (c c' : Cache) : Prop extends Steady c c' where
  sound : Sound c'
  entries : ∀ j, (c'.entries j).valid = (c.entries j).valid ∧
    (c'.entries j).block = (c.entries j).block

theorem WrittenBack.trans (h : WrittenBack c c') (h' : WrittenBack c' c'') : WrittenBack c c'' :=
  ⟨h.toSteady.trans h'.toSteady, h'.sound, fun j =>
    ⟨(h'.entries j).1.trans (h.entries j).1, (h'.entries j).2.trans (h.entries j).2⟩⟩

/-- Writing an entry back changes the device, and at most the entry's dirty flag. -/
theorem writeBack_writtenBack (h : Sound c) (i : ℕ) : WrittenBack c (c.writeBack i).2 := by
  obtain ⟨hsize, hcount⟩ := c.device.writeBlocks_geometry ((c.entries i).block * c.deviceBlocks)
    c.deviceBlocks (c.entries i).data
  simp only [Cache.writeBack]
  split_ifs
  · refine ⟨(Steady.device hsize hcount).trans (.keep rfl rfl rfl rfl),
      (h.device hcount).keep rfl rfl (h.idle i), fun j => ⟨?_, ?_⟩⟩
    · exact Cache.setEntry_keeps Entry.valid (by rfl) j
    · exact Cache.setEntry_keeps Entry.block (by rfl) j
  · exact ⟨.device hsize hcount, h.device hcount, fun _ => ⟨rfl, rfl⟩⟩

/-! ## Finding an entry -/

theorem find_some (h : c.find block = some i) :
    i < c.capacity ∧ (c.entries i).valid = true ∧ (c.entries i).block = block := by
  have hmem := List.mem_of_find?_eq_some h
  have hprop := List.find?_some h
  simp only [Bool.and_eq_true, beq_iff_eq] at hprop
  exact ⟨List.mem_range.mp hmem, hprop⟩

theorem find_none (h : c.find block = none) :
    ∀ i < c.capacity, (c.entries i).valid = true → (c.entries i).block ≠ block := by
  intro i hi hv heq
  have := List.find?_eq_none.mp h i (List.mem_range.mpr hi)
  simp [hv, heq] at this

theorem victimFrom_some {is : List ℕ} {oldest : Option ℕ} (h : c.victimFrom is oldest = some i) :
    (i ∈ is ∧ (c.entries i).pins = 0) ∨ oldest = some i := by
  induction is generalizing oldest with
  | nil => exact .inr h
  | cons k is ih =>
    have hstep : ∀ {next}, c.victimFrom is next = some i →
        (next = oldest ∨ next = some k ∧ (c.entries k).pins = 0) →
          (i ∈ k :: is ∧ (c.entries i).pins = 0) ∨ oldest = some i := by
      intro next hnext hcases
      rcases ih hnext with ⟨hmem, hpins⟩ | hlast
      · exact .inl ⟨List.mem_cons_of_mem k hmem, hpins⟩
      · rcases hcases with rfl | ⟨rfl, hpins⟩
        · exact .inr hlast
        · cases hlast
          exact .inl ⟨List.mem_cons_self, hpins⟩
    unfold Cache.victimFrom at h
    split_ifs at h with hpins hempty
    · exact hstep h (.inl rfl)
    · cases h
      exact .inl ⟨List.mem_cons_self, by simpa using hpins⟩
    · have hpins : (c.entries k).pins = 0 := by simpa using hpins
      cases oldest with
      | none => exact hstep h (.inr ⟨rfl, hpins⟩)
      | some j =>
        simp only at h
        split_ifs at h
        · exact hstep h (.inr ⟨rfl, hpins⟩)
        · exact hstep h (.inl rfl)

theorem victim_some (h : c.victim = some i) : i < c.capacity ∧ (c.entries i).pins = 0 := by
  rcases victimFrom_some h with ⟨hmem, hpins⟩ | hnone
  · exact ⟨List.mem_range.mp hmem, hpins⟩
  · exact absurd hnone (by simp)

/-! ## Loading a block -/

/-- What the end of a miss leaves in an entry nobody holds. -/
theorem fill_sound (h : Sound c) (hpins : (c.entries i).pins = 0)
    (hb : block < c.blockCount)
    (habsent : ∀ j < c.capacity, (c.entries j).valid = true → (c.entries j).block ≠ block)
    (access : Access) :
    Sound (c.fill i block access).2 ∧ Steady c (c.fill i block access).2 ∧
      ∀ k, (c.fill i block access).1 = .ok k → k = i ∧
        ((c.fill i block access).2.entries i).valid = true ∧
        ((c.fill i block access).2.entries i).block = block := by
  have hothers : ∀ j < c.capacity, j ≠ i → (c.entries j).valid = true →
      (c.entries j).block ≠ block := fun j hj _ => habsent j hj
  cases access with
  | overwrite =>
    refine ⟨h.setEntry (fun _ _ => ⟨hb, hothers⟩) (fun _ _ => hpins), Steady.setEntry hpins hpins,
      fun k hk => ?_⟩
    cases hk
    simp [Cache.fill]
  | read =>
    obtain ⟨hsize, hcount⟩ :=
      c.device.readBlocks_geometry (block * c.deviceBlocks) c.deviceBlocks
    simp only [Cache.fill]
    set d := (c.device.readBlocks (block * c.deviceBlocks) c.deviceBlocks).2.2
    have hd : Sound { c with device := d } := h.device hcount
    have hb' : block < Cache.blockCount { c with device := d } := by
      rw [Cache.blockCount, hcount]
      exact hb
    have hsteady : Steady c { c with device := d } := .device hsize hcount
    split_ifs
    · refine ⟨hd.setEntry (fun _ _ => ⟨hb', hothers⟩) (fun _ _ => hpins),
        hsteady.trans (Steady.setEntry hpins hpins), fun k hk => ?_⟩
      cases hk
      simp
    · -- the load failed: the entry is left invalid, and nobody holds it
      exact ⟨hd.setEntry (fun _ hv => by simp at hv) (fun _ _ => hpins),
        hsteady.trans (Steady.setEntry hpins hpins), fun k hk => by cases hk⟩

theorem load_sound (h : Sound c) (hb : block < c.blockCount)
    (habsent : ∀ j < c.capacity, (c.entries j).valid = true → (c.entries j).block ≠ block)
    (access : Access) :
    Sound (c.load block access).2 ∧ Steady c (c.load block access).2 ∧
      ∀ k, (c.load block access).1 = .ok k → k < c.capacity ∧
        ((c.load block access).2.entries k).valid = true ∧
        ((c.load block access).2.entries k).block = block := by
  cases hvictim : c.victim with
  | none =>
    simp only [Cache.load, hvictim]
    exact ⟨h, Steady.refl c, fun k hk => by cases hk⟩
  | some i =>
    obtain ⟨hi, hpins⟩ := victim_some hvictim
    simp only [Cache.load, hvictim]
    -- a dirty victim is written back first, which may fail
    split_ifs with hdirty hok
    · have hback := writeBack_writtenBack h i
      have hfill := fill_sound hback.sound ((hback.pins i).trans hpins)
        (show block < _ by rwa [hback.blockCount])
        (fun j hj hv => by
          rw [hback.capacity] at hj
          rw [(hback.entries j).1] at hv
          rw [(hback.entries j).2]
          exact habsent j hj hv) access
      refine ⟨hfill.1, hback.toSteady.trans hfill.2.1, fun k hk => ?_⟩
      obtain ⟨rfl, hbound⟩ := hfill.2.2 k hk
      exact ⟨hi, hbound⟩
    · have hback := writeBack_writtenBack h i
      exact ⟨hback.sound, hback.toSteady, fun k hk => by cases hk⟩
    · have hfill := fill_sound h hpins hb habsent access
      refine ⟨hfill.1, hfill.2.1, fun k hk => ?_⟩
      obtain ⟨rfl, hbound⟩ := hfill.2.2 k hk
      exact ⟨hi, hbound⟩

/-! ## Acquiring -/

/-- What a successful `acquire` leaves: one more pin on the buffer of the block, and every other
pinned buffer as it was. -/
structure Taken (c : Cache) (block : ℕ) (access : Access) (i : ℕ) (c' : Cache) : Prop where
  sound : Sound c'
  shape : Shape c c'
  index : i < c.capacity
  bound : (c'.entries i).valid = true ∧ (c'.entries i).block = block
  pins : ∀ j, (c'.entries j).pins = (c.entries j).pins + if j = i then 1 else 0
  others : ∀ j, (c.entries j).pins ≠ 0 →
    (c'.entries j).block = (c.entries j).block ∧ (c'.entries j).valid = (c.entries j).valid
  data : ∀ j, (c.entries j).pins ≠ 0 → access = .read ∨ j ≠ i →
    (c'.entries j).data = (c.entries j).data

theorem pin_taken {d : Cache} (h : Sound d) (hsteady : Steady c d) (hi : i < c.capacity)
    (hv : (d.entries i).valid = true) (hblock : (d.entries i).block = block)
    (hpins : (c.entries i).pins + 1 < pinLimit) (access : Access) :
    Taken c block access i (d.pin i access) := by
  have hmod : ((d.entries i).pins + 1) % pinLimit = (c.entries i).pins + 1 := by
    rw [hsteady.pins i]
    exact Nat.mod_eq_of_lt hpins
  refine ⟨(h.counters _ d.hits d.misses).keep rfl rfl fun _ hinvalid => ?_,
    hsteady.toShape.trans ⟨rfl, rfl, rfl, rfl, rfl, rfl⟩, hi, ?_, fun j => ?_, fun j hj => ?_,
    fun j hj haccess => ?_⟩
  · exact absurd (hv.symm.trans hinvalid) (by simp)
  · rw [Cache.pin, Cache.setEntry_self]
    exact ⟨hv, hblock⟩
  · by_cases hji : j = i
    · rw [hji, if_pos rfl, Cache.pin, Cache.setEntry_self, Cache.pinEntry, hmod]
    · rw [if_neg hji, Cache.pin, Cache.setEntry_of_ne hji]
      exact hsteady.pins j
  · rw [← (hsteady.bound j hj).1, ← (hsteady.bound j hj).2, Cache.pin]
    by_cases hji : j = i
    · rw [hji, Cache.setEntry_self]
      exact ⟨rfl, rfl⟩
    · rw [Cache.setEntry_of_ne hji]
      exact ⟨rfl, rfl⟩
  · rw [← hsteady.data j hj, Cache.pin]
    by_cases hji : j = i
    · subst hji
      rw [Cache.setEntry_self, Cache.pinEntry, if_neg (by
        rcases haccess with rfl | hne
        · simp
        · exact absurd rfl hne)]
    · rw [Cache.setEntry_of_ne hji]

/-- **`acquire`**, whether or not the device fails. -/
theorem acquire_sound (h : Sound c) (hpins : ∀ i < c.capacity, (c.entries i).pins + 1 < pinLimit)
    (block : ℕ) (access : Access) :
    (∃ err c', c.acquire block access = (.error err, c') ∧ Sound c' ∧ Steady c c') ∨
      ∃ i c', c.acquire block access = (.ok i, c') ∧ Taken c block access i c' := by
  unfold Cache.acquire
  by_cases hready : c.ready = false
  · rw [if_pos hready]
    exact .inl ⟨_, _, rfl, h, Steady.refl c⟩
  rw [if_neg hready]
  by_cases hb : block ≥ c.blockCount
  · rw [if_pos hb]
    exact .inl ⟨_, _, rfl, h, Steady.refl c⟩
  rw [if_neg hb]
  -- a hit is pinned, a miss is loaded first
  cases hfind : c.find block with
  | some i =>
    obtain ⟨hi, hv, hblock⟩ := find_some hfind
    have hcounted := Steady.counters c c.clock ((c.hits + 1) % clockLimit) c.misses
    exact .inr ⟨i, _, rfl, pin_taken (h.counters _ _ _) hcounted hi hv hblock (hpins i hi) access⟩
  | none =>
    have hcounted := Steady.counters c c.clock c.hits ((c.misses + 1) % clockLimit)
    obtain ⟨hsound, hsteady, hok⟩ := load_sound
      (h.counters c.clock c.hits ((c.misses + 1) % clockLimit)) (Nat.lt_of_not_le hb)
      (find_none hfind) access
    cases hload : Cache.load { c with misses := (c.misses + 1) % clockLimit } block access with
    | mk result loaded =>
      rw [hload] at hsound hsteady hok
      cases result with
      | error err => exact .inl ⟨err, loaded, rfl, hsound, hcounted.trans hsteady⟩
      | ok i =>
        obtain ⟨hi, hv, hblock⟩ := hok i rfl
        exact .inr ⟨i, loaded.pin i access, rfl,
          pin_taken hsound (hcounted.trans hsteady) hi hv hblock (hpins i hi) access⟩

/-! ## Handles -/

/-- A buffer in the hands of a client, and the block it asked for. -/
structure Handle where
  buffer : ℕ
  block : ℕ
deriving DecidableEq, Repr

/-- How many handles there are to a buffer. -/
def holders (handles : List Handle) (i : ℕ) : ℕ := handles.countP fun h => h.buffer == i

/-- Give back one handle to a buffer. -/
def giveBack (handles : List Handle) (i : ℕ) : List Handle :=
  handles.eraseP fun h => h.buffer == i

/-- No buffer has so many handles that one more would make its pins wrap. -/
def Unsaturated (handles : List Handle) : Prop :=
  ∀ h ∈ handles, holders handles h.buffer + 1 < pinLimit

variable {handles : List Handle} {x : Handle} {access : Access}

theorem holders_cons (h : Handle) :
    holders (h :: handles) i = holders handles i + if i = h.buffer then 1 else 0 := by
  simp only [holders, List.countP_cons, beq_iff_eq, eq_comm (a := i)]

theorem holders_pos : holders handles i ≠ 0 ↔ ∃ h ∈ handles, h.buffer = i := by
  rw [holders, ← Nat.pos_iff_ne_zero, List.countP_pos_iff]
  simp only [beq_iff_eq]

theorem Unsaturated.lt (h : Unsaturated handles) (i : ℕ) : holders handles i + 1 < pinLimit := by
  by_cases hi : holders handles i = 0
  · rw [hi]
    decide
  · obtain ⟨x, hx, rfl⟩ := holders_pos.mp hi
    exact h x hx

theorem holders_giveBack (handles : List Handle) (i j : ℕ) :
    holders (giveBack handles i) j = holders handles j - if j = i then 1 else 0 := by
  induction handles with
  | nil => simp [giveBack, holders]
  | cons h handles ih =>
    by_cases hi : h.buffer = i
    · -- the handle given back is the first one
      rw [giveBack, List.eraseP_cons_of_pos (by simpa using hi), holders_cons, hi]
      split_ifs <;> omega
    · rw [giveBack, List.eraseP_cons_of_neg (by simpa using hi), holders_cons, holders_cons]
      rw [giveBack] at ih
      rw [ih]
      split_ifs <;> omega

theorem giveBack_cons (x : Handle) : giveBack (x :: handles) x.buffer = handles :=
  List.eraseP_cons_of_pos (by simp)

theorem giveBack_of_not_held (h : holders handles i = 0) : giveBack handles i = handles := by
  refine List.eraseP_of_forall_not fun x hx hi => ?_
  exact absurd h (holders_pos.mpr ⟨x, hx, by simpa using hi⟩)

/-- The entries are sound, and their pins are the handles that are out. -/
structure Held (c : Cache) (handles : List Handle) : Prop where
  sound : Sound c
  pins : ∀ i < c.capacity, (c.entries i).pins = holders handles i
  bound : ∀ x ∈ handles, x.buffer < c.capacity ∧ (c.entries x.buffer).valid = true ∧
    (c.entries x.buffer).block = x.block

theorem Held.pinned (h : Held c handles) (hx : x ∈ handles) : (c.entries x.buffer).pins ≠ 0 := by
  rw [h.pins _ (h.bound x hx).1]
  exact holders_pos.mpr ⟨x, hx, rfl⟩

/-- What leaves the pinned buffers with their blocks leaves the handles good. -/
theorem Held.frame (h : Held c handles) (hsound : Sound c') (hframe : Frame c c') :
    Held c' handles := by
  refine ⟨hsound, fun i hi => (hframe.pins i).trans (h.pins i (hframe.capacity ▸ hi)),
    fun x hx => ?_⟩
  obtain ⟨hi, hv, hb⟩ := h.bound x hx
  obtain ⟨hblock, hvalid⟩ := hframe.bound _ (h.pinned hx)
  exact ⟨by rwa [hframe.capacity], hvalid.trans hv, hblock.trans hb⟩

theorem Held.taken (h : Held c handles) (ht : Taken c block access i c') :
    Held c' (⟨i, block⟩ :: handles) := by
  refine ⟨ht.sound, fun j hj => ?_, fun x hx => ?_⟩
  · rw [ht.pins j, h.pins j (ht.shape.capacity ▸ hj), holders_cons]
  · rcases List.mem_cons.mp hx with rfl | hx
    · exact ⟨by rw [ht.shape.capacity]; exact ht.index, ht.bound⟩
    · obtain ⟨hi, hv, hb⟩ := h.bound x hx
      obtain ⟨hblock, hvalid⟩ := ht.others _ (h.pinned hx)
      exact ⟨by rwa [ht.shape.capacity], hvalid.trans hv, hblock.trans hb⟩

/-- A second buffer for a block that is held would be the same one. -/
theorem Held.taken_eq (h : Held c handles) (hx : x ∈ handles) (ht : Taken c x.block access i c') :
    i = x.buffer := by
  obtain ⟨hj, hv, hb⟩ := (h.taken ht).bound x (List.mem_cons_of_mem _ hx)
  exact ht.sound.unique i (by rw [ht.shape.capacity]; exact ht.index) x.buffer hj ht.bound.1 hv
    (ht.bound.2.trans hb.symm)

theorem release_shape (c : Cache) (i : ℕ) (dirty : Bool) : Shape c (c.release i dirty) := by
  rw [Cache.release]
  split_ifs
  · exact ⟨rfl, rfl, rfl, rfl, rfl, rfl⟩
  · exact Shape.refl c

theorem release_entries (c : Cache) (i : ℕ) (dirty : Bool) (j : ℕ) :
    ((c.release i dirty).entries j).block = (c.entries j).block ∧
      ((c.release i dirty).entries j).valid = (c.entries j).valid ∧
      ((c.release i dirty).entries j).data = (c.entries j).data := by
  rw [Cache.release]
  split_ifs
  · exact ⟨Cache.setEntry_keeps Entry.block (by rfl) j, Cache.setEntry_keeps Entry.valid (by rfl) j,
      Cache.setEntry_keeps Entry.data (by rfl) j⟩
  · exact ⟨rfl, rfl, rfl⟩

theorem Held.release (h : Held c handles) (i : ℕ) (dirty : Bool) :
    Held (c.release i dirty) (giveBack handles i) := by
  have hshape := release_shape c i dirty
  refine ⟨?_, fun j hj => ?_, fun x hx => ?_⟩
  · rw [Cache.release]
    split_ifs with hi
    · exact h.sound.keep rfl rfl fun _ hv => absurd (h.sound.idle i hi.1 hv) hi.2
    · exact h.sound
  · rw [hshape.capacity] at hj
    rw [holders_giveBack, ← h.pins j hj, Cache.release]
    split_ifs with hi hji hji
    · subst hji
      rw [Cache.setEntry_self]
    · rw [Cache.setEntry_of_ne hji]
      rfl
    · -- nobody holds the buffer
      subst hji
      by_contra hne
      exact hi ⟨hj, by omega⟩
    · rfl
  · obtain ⟨hj, hv, hb⟩ := h.bound x (List.mem_of_mem_eraseP hx)
    obtain ⟨hblock, hvalid, -⟩ := release_entries c i dirty x.buffer
    exact ⟨by rwa [hshape.capacity], hvalid.trans hv, hblock.trans hb⟩

/-- The buffer a transfer takes and gives back has its old pins again. -/
theorem Taken.giveBack_frame (ht : Taken c block access i c') (data : Bytes) (dirty : Bool) :
    Frame c ((c'.setData i data).release i dirty) := by
  have hi : i < (c'.setData i data).capacity := by
    change i < c'.capacity
    rw [ht.shape.capacity]
    exact ht.index
  have hpins : ((c'.setData i data).entries i).pins = (c.entries i).pins + 1 := by
    rw [Cache.setData, Cache.setEntry_self]
    simpa using ht.pins i
  have hshape : Shape c ((c'.setData i data).release i dirty) :=
    (ht.shape.trans (show Shape c' (c'.setData i data) from ⟨rfl, rfl, rfl, rfl, rfl, rfl⟩)).trans
      (release_shape _ i dirty)
  refine ⟨hshape, fun j => ?_, fun j hj => ?_⟩
  · rw [Cache.release, if_pos ⟨hi, by omega⟩]
    by_cases hji : j = i
    · subst hji
      rw [Cache.setEntry_self]
      dsimp only
      omega
    · rw [Cache.setEntry_of_ne hji, Cache.setData, Cache.setEntry_of_ne hji, ht.pins j, if_neg hji]
      rfl
  · obtain ⟨hblock, hvalid, -⟩ := release_entries (c'.setData i data) i dirty j
    rw [hblock, hvalid]
    exact ⟨(Cache.setEntry_keeps Entry.block (by rfl) j).trans (ht.others j hj).1,
      (Cache.setEntry_keeps Entry.valid (by rfl) j).trans (ht.others j hj).2⟩

theorem Held.unsaturated (h : Held c handles) (hlimit : Unsaturated handles) :
    ∀ i < c.capacity, (c.entries i).pins + 1 < pinLimit := fun i hi => by
  rw [h.pins i hi]
  exact hlimit.lt i

theorem Held.setData (h : Held c handles) (i : ℕ) (data : Bytes) :
    Held (c.setData i data) handles := by
  refine ⟨h.sound.keep rfl rfl (h.sound.idle i),
    fun j hj => (Cache.setEntry_keeps Entry.pins (by rfl) j).trans (h.pins j hj), fun x hx => ?_⟩
  obtain ⟨hi, hv, hb⟩ := h.bound x hx
  exact ⟨hi, (Cache.setEntry_keeps Entry.valid (by rfl) _).trans hv,
    (Cache.setEntry_keeps Entry.block (by rfl) _).trans hb⟩

/-- One round of a transfer: the block's buffer is taken, `data` is put there, and it is given
back. -/
theorem Held.round (h : Held c handles) (ht : Taken c block access i c') (data : Bytes)
    (dirty : Bool) : Held ((c'.setData i data).release i dirty) handles := by
  refine h.frame ?_ (ht.giveBack_frame data dirty)
  exact (((h.taken ht).setData i data).release i dirty).sound

/-! ## Synchronization -/

theorem syncLoop_writtenBack (is : List ℕ) : ∀ (written : ℕ) (failure : Error) {c : Cache},
    Sound c → WrittenBack c (Cache.syncLoop is written failure c).2 := by
  induction is with
  | nil => exact fun _ _ c h => ⟨Steady.refl c, h, fun _ => ⟨rfl, rfl⟩⟩
  | cons i is ih =>
    intro written failure c h
    have hback := writeBack_writtenBack h i
    rw [Cache.syncLoop]
    dsimp only
    split
    · split
      · exact hback.trans (ih _ _ hback.sound)
      · exact hback.trans (ih _ _ hback.sound)
    · exact ih written failure h

theorem Held.sync (h : Held c handles) : Held c.sync.2 handles :=
  have hback := syncLoop_writtenBack (List.range c.capacity) 0 .none h.sound
  h.frame hback.sound hback.toFrame

/-- With nothing valid and no buffers out, the entries are sound. -/
theorem held_of_empty (hoff : c.ready = false → c.capacity = 0)
    (hvalid : ∀ i < c.capacity, (c.entries i).valid = false)
    (hpins : ∀ i < c.capacity, (c.entries i).pins = 0) : Held c [] where
  sound :=
    { off := hoff
      inRange := fun i hi hv => by rw [hvalid i hi] at hv; cases hv
      unique := fun i hi j _ hv => by rw [hvalid i hi] at hv; cases hv
      idle := fun i hi _ => hpins i hi }
  pins i hi := by rw [hpins i hi]; rfl
  bound _ hx := by cases hx

end ShirleysOS.Storage
