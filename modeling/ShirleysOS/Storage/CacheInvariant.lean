import ShirleysOS.Storage.Handles

/-!
# The invariant of the block cache

The cache and the device together hold one logical content. A valid entry has the logical
content of its block; a block that no entry holds, or that its entry has not to write back, is
on the device. A buffer that a client has modified without saying so yet is the exception:
only its entry has that content, although it is not marked dirty.
-/

namespace ShirleysOS.Storage

open Lib

/-- Two contents agree on a block. -/
def SameBlock (size block : ℕ) (x y : Bytes) : Prop :=
  ∀ j < size, x (block * size + j) = y (block * size + j)

/-- A buffer has the bytes of a block. -/
def HoldsBlock (size block : ℕ) (data content : Bytes) : Prop :=
  ∀ j < size, data j = content (block * size + j)

/-- **Coherence**: the cache and its device hold the logical content `content`, where the
buffers in `pending` have modifications that were not released yet. -/
structure Coherent (c : Cache) (content : Bytes) (pending : ℕ → Prop) : Prop extends Sound c where
  ready : c.ready = true
  bytes : c.blockBytes = c.deviceBlocks * c.device.blockSize
  unused : ∀ i < c.capacity, (c.entries i).valid = false → (c.entries i).dirty = false
  data : ∀ i < c.capacity, (c.entries i).valid = true →
    HoldsBlock c.blockBytes (c.entries i).block (c.entries i).data content
  clean : ∀ i < c.capacity, (c.entries i).valid = true → (c.entries i).dirty = false →
    ¬ pending i → SameBlock c.blockBytes (c.entries i).block c.device.content content
  absent : ∀ b < c.blockCount,
    (∀ i < c.capacity, (c.entries i).valid = true → (c.entries i).block ≠ b) →
      SameBlock c.blockBytes b c.device.content content
  held : ∀ i, pending i →
    i < c.capacity ∧ (c.entries i).valid = true ∧ (c.entries i).pins ≠ 0

variable {c c' : Cache} {content content' : Bytes} {pending pending' : ℕ → Prop}
  {i j block : ℕ} {e : Entry}

/-- A block of the cache is in the device's range. -/
theorem device_inRange (hready : c.ready = true) (hb : block < c.blockCount) :
    block * c.deviceBlocks + c.deviceBlocks ≤ c.device.blockCount := by
  rw [Cache.blockCount, if_pos hready] at hb
  have := Nat.mul_le_of_le_div _ _ _ (Nat.succ_le_of_lt hb)
  rwa [Nat.succ_mul] at this

/-! ## Device accesses -/

theorem Result.ok_eq_false {r : Result} : r.ok = false ↔ r.error ≠ .none := by
  simp [Result.ok]

theorem Device.readBlocks_cases (d : Device) {first count : ℕ} (h : first + count ≤ d.blockCount) :
    ((d.readBlocks first count).1.ok = true ∧
        (d.readBlocks first count).2.1 = d.content.slice (first * d.blockSize) ∨
      (d.readBlocks first count).1.ok = false) ∧
    (d.readBlocks first count).2.2 = d.advance := by
  rw [readBlocks, if_neg (by omega)]
  cases d.faults d.accesses with
  | none => exact ⟨.inl ⟨rfl, rfl⟩, rfl⟩
  | some fault => exact ⟨.inr (by simp [Result.ok, fault.failed]), rfl⟩

theorem Device.writeBlocks_cases (d : Device) {first count : ℕ} (data : Bytes)
    (h : first + count ≤ d.blockCount) :
    ((d.writeBlocks first count data).1.ok = true ∧ (d.writeBlocks first count data).2 =
        { d.advance with
          content := d.content.splice (first * d.blockSize) (count * d.blockSize) data }) ∨
      ((d.writeBlocks first count data).1.ok = false ∧ ∃ leaves,
        (d.writeBlocks first count data).2 =
          { d.advance with
            content := d.content.splice (first * d.blockSize) (count * d.blockSize) leaves }) := by
  rw [writeBlocks, if_neg (by omega)]
  cases d.faults d.accesses with
  | none => exact .inl ⟨rfl, rfl⟩
  | some fault => exact .inr ⟨by simp [Result.ok, fault.failed], fault.leaves, rfl⟩

/-! ## One entry changes -/

section

variable (h : Coherent c content pending) (hi : i < c.capacity) (hvalid : e.valid = true)
  (hcontent : ∀ b, b ≠ e.block → SameBlock c.blockBytes b content' content)
  (hdata : HoldsBlock c.blockBytes e.block e.data content')
  (hclean : e.dirty = false → ¬ pending' i →
    SameBlock c.blockBytes e.block c.device.content content')
  (hpending : ∀ j, j ≠ i → (pending' j ↔ pending j)) (hheld : pending' i → e.pins ≠ 0)
include h hi hvalid hcontent hdata hclean hpending hheld

/-- **A new content of one entry.** The logical content may change on the entry's block with
it. -/
theorem Coherent.replace (hrange : e.block < c.blockCount)
    (hothers : ∀ j < c.capacity, j ≠ i → (c.entries j).valid = true →
      (c.entries j).block ≠ e.block)
    (hold : (c.entries i).valid = true → (c.entries i).block = e.block) :
    Coherent (c.setEntry i e) content' pending' where
  toSound := h.setEntry (fun _ _ => ⟨hrange, hothers⟩) fun _ hv => nomatch hvalid.symm.trans hv
  ready := h.ready
  bytes := h.bytes
  unused j hj hv := by
    by_cases hji : j = i
    · rw [hji, Cache.setEntry_self, hvalid] at hv
      exact absurd hv (by simp)
    · rw [Cache.setEntry_of_ne hji] at hv ⊢
      exact h.unused j hj hv
  data j hj hv := by
    by_cases hji : j = i
    · subst hji
      rw [Cache.setEntry_self]
      exact hdata
    · rw [Cache.setEntry_of_ne hji] at hv ⊢
      intro k hk
      exact (h.data j hj hv k hk).trans (hcontent _ (hothers j hj hji hv) k hk).symm
  clean j hj hv hd hp := by
    by_cases hji : j = i
    · subst hji
      rw [Cache.setEntry_self] at hd ⊢
      exact hclean hd hp
    · rw [Cache.setEntry_of_ne hji] at hv hd ⊢
      rw [hpending j hji] at hp
      intro k hk
      exact (h.clean j hj hv hd hp k hk).trans (hcontent _ (hothers j hj hji hv) k hk).symm
  absent b hb hnone := by
    have hne : b ≠ e.block := fun heq => by
      have := hnone i hi
      rw [Cache.setEntry_self] at this
      exact this hvalid heq.symm
    intro k hk
    -- a block that is in no entry now was in none before
    refine (h.absent b hb (fun j hj hv => ?_) k hk).trans (hcontent b hne k hk).symm
    by_cases hji : j = i
    · subst hji
      rw [hold hv]
      exact hne.symm
    · have := hnone j hj
      rw [Cache.setEntry_of_ne hji] at this
      exact this hv
  held j hj := by
    by_cases hji : j = i
    · subst hji
      rw [Cache.setEntry_self]
      exact ⟨hi, hvalid, hheld hj⟩
    · rw [Cache.setEntry_of_ne hji]
      exact h.held j ((hpending j hji).mp hj)

/-- A new content of an entry that keeps its block. -/
theorem Coherent.rewrite (hv : (c.entries i).valid = true)
    (hblock : e.block = (c.entries i).block) : Coherent (c.setEntry i e) content' pending' :=
  h.replace hi hvalid hcontent hdata hclean hpending hheld (hblock ▸ h.inRange i hi hv)
    (fun j hj hji hvj heq => hji (h.unique j hj i hi hvj hv (heq.trans hblock)))
    fun _ => hblock.symm

end

/-- An entry that nobody holds and that has nothing to write may be emptied. -/
theorem Coherent.drop (h : Coherent c content pending) (hpins : (c.entries i).pins = 0)
    (hdirty : (c.entries i).dirty = false) (hvalid : e.valid = false) (hclean : e.dirty = false)
    (hfree : e.pins = 0) : Coherent (c.setEntry i e) content pending where
  toSound := h.setEntry (fun _ hv => nomatch hvalid.symm.trans hv) fun _ _ => hfree
  ready := h.ready
  bytes := h.bytes
  unused j hj hv := by
    by_cases hji : j = i
    · rw [hji, Cache.setEntry_self]
      exact hclean
    · rw [Cache.setEntry_of_ne hji] at hv ⊢
      exact h.unused j hj hv
  data j hj hv := by
    have hji : j ≠ i := fun hji => by simp [hji, hvalid] at hv
    rw [Cache.setEntry_of_ne hji] at hv ⊢
    exact h.data j hj hv
  clean j hj hv hd hp := by
    have hji : j ≠ i := fun hji => by simp [hji, hvalid] at hv
    rw [Cache.setEntry_of_ne hji] at hv hd ⊢
    exact h.clean j hj hv hd hp
  absent b hb hnone := by
    -- the block the entry held is on the device already
    by_cases hwas : i < c.capacity ∧ (c.entries i).valid = true ∧ (c.entries i).block = b
    · obtain ⟨hi, hv, rfl⟩ := hwas
      exact h.clean i hi hv hdirty fun hp => (h.held i hp).2.2 hpins
    · refine h.absent b hb fun j hj hv heq => ?_
      by_cases hji : j = i
      · subst hji
        exact hwas ⟨hj, hv, heq⟩
      · have := hnone j hj
        rw [Cache.setEntry_of_ne hji] at this
        exact this hv heq
  held j hj := by
    have hji : j ≠ i := fun hji => (h.held j hj).2.2 (hji ▸ hpins)
    rw [Cache.setEntry_of_ne hji]
    exact h.held j hj

/-- The device may change where it gets the logical content, or under a dirty entry. -/
theorem Coherent.device {d : Device} (h : Coherent c content pending)
    (hsize : d.blockSize = c.device.blockSize) (hcount : d.blockCount = c.device.blockCount)
    (hchange : ∀ b, SameBlock c.blockBytes b d.content c.device.content ∨
      SameBlock c.blockBytes b d.content content ∨
      ∃ i < c.capacity, (c.entries i).valid = true ∧ (c.entries i).dirty = true ∧
        (c.entries i).block = b) :
    Coherent { c with device := d } content pending where
  toSound := h.toSound.device hcount
  ready := h.ready
  bytes := by rw [hsize]; exact h.bytes
  unused := h.unused
  data := h.data
  clean i hi hv hd hp := by
    rcases hchange (c.entries i).block with hsame | hnew | ⟨j, hj, hvj, hdj, heq⟩
    · exact fun k hk => (hsame k hk).trans (h.clean i hi hv hd hp k hk)
    · exact hnew
    · have := h.unique i hi j hj hv hvj heq.symm
      subst this
      exact absurd hd (by simp [hdj])
  absent b hb hnone := by
    rw [Cache.blockCount, hcount] at hb
    rcases hchange b with hsame | hnew | ⟨j, hj, hvj, -, heq⟩
    · exact fun k hk => (hsame k hk).trans (h.absent b hb hnone k hk)
    · exact hnew
    · exact absurd heq (hnone j hj hvj)
  held := h.held

/-! ## Writing back -/

theorem writeBack_cases (h : Coherent c content pending) (hi : i < c.capacity)
    (hv : (c.entries i).valid = true) :
    ((c.writeBack i).1.ok = true ∧ Coherent (c.writeBack i).2 content pending ∧
        (c.writeBack i).2.entries =
          Function.update c.entries i { c.entries i with dirty := false }) ∨
      ((c.writeBack i).1.ok = false ∧ (c.writeBack i).2.entries = c.entries ∧
        ((c.entries i).dirty = true → Coherent (c.writeBack i).2 content pending)) := by
  have hrange := device_inRange h.ready (h.inRange i hi hv)
  have hat : (c.entries i).block * c.deviceBlocks * c.device.blockSize =
      (c.entries i).block * c.blockBytes := by rw [h.bytes, Nat.mul_assoc]
  simp only [Cache.writeBack]
  rcases c.device.writeBlocks_cases (c.entries i).data hrange with ⟨hok, hd⟩ | ⟨hfail, leaves, hd⟩
  · left
    rw [hok, hd, hat, ← h.bytes]
    simp only [if_true, true_and]
    -- the block is on the device now
    have hwritten : SameBlock c.blockBytes (c.entries i).block
        (c.device.content.splice ((c.entries i).block * c.blockBytes) c.blockBytes
          (c.entries i).data) content := fun k hk => by
      rw [Bytes.splice_add hk]
      exact h.data i hi hv k hk
    refine ⟨Coherent.rewrite (h.device rfl rfl fun b => ?_) hi hv (fun _ _ _ _ => rfl)
      (h.data i hi hv) (fun _ _ => hwritten) (fun j _ => Iff.rfl) (fun hp => (h.held i hp).2.2)
      hv rfl, rfl⟩
    by_cases hb : b = (c.entries i).block
    · subst hb
      exact .inr (.inl hwritten)
    · exact .inl fun k hk => Bytes.splice_otherBlock hb hk
  · right
    rw [hfail, hd, hat, ← h.bytes]
    simp only [Bool.false_eq_true, if_false, true_and]
    refine fun hdirty => h.device rfl rfl fun b => ?_
    by_cases hb : b = (c.entries i).block
    · exact .inr (.inr ⟨i, hi, hv, hdirty, hb.symm⟩)
    · exact .inl fun k hk => Bytes.splice_otherBlock hb hk

/-! ## Loading a block -/

/-- What a successful load leaves: an entry `e` for the block, put into a coherent cache `d` in
which entry `i` is empty. -/
structure Loaded (content : Bytes) (pending : ℕ → Prop) (block : ℕ) (access : Access) (i : ℕ)
    (d : Cache) (e : Entry) : Prop where
  coherent : Coherent d content pending
  empty : (d.entries i).valid = false
  absent : ∀ j < d.capacity, (d.entries j).valid = true → (d.entries j).block ≠ block
  valid : e.valid = true
  bound : e.block = block
  clean : e.dirty = false
  pins : e.pins = 0
  data : access = .read → HoldsBlock d.blockBytes block e.data content ∧
    SameBlock d.blockBytes block d.device.content content

theorem fill_spec (access : Access) (h : Coherent c content pending)
    (hpins : (c.entries i).pins = 0) (hdirty : (c.entries i).dirty = false)
    (hb : block < c.blockCount)
    (habsent : ∀ j < c.capacity, (c.entries j).valid = true → (c.entries j).block ≠ block) :
    (∃ err c', c.fill i block access = (.error err, c') ∧ err ≠ .none ∧
        Coherent c' content pending) ∨
      ∃ d e, c.fill i block access = (.ok i, d.setEntry i e) ∧
        Loaded content pending block access i d e := by
  have hothers : ∀ {d : Cache} {e : Entry}, d.entries = Function.update c.entries i e →
      e.valid = false → ∀ j < c.capacity, (d.entries j).valid = true →
        (d.entries j).block ≠ block := by
    intro d e hd hv j hj
    rw [hd]
    by_cases hji : j = i
    · simp [hji, hv]
    · rw [Function.update_of_ne hji]
      exact habsent j hj
  cases access with
  | overwrite =>
    refine .inr ⟨c.setEntry i { c.entries i with valid := false },
      { c.entries i with block, valid := true, dirty := false }, ?_, ?_⟩
    · simp only [Cache.fill, Cache.setEntry_setEntry]
    · exact ⟨h.drop hpins hdirty rfl hdirty hpins, by simp, hothers rfl rfl, rfl, rfl, rfl, hpins,
        fun hread => by simp at hread⟩
  | read =>
    obtain ⟨hread, hd⟩ := c.device.readBlocks_cases (device_inRange h.ready hb)
    have hat : block * c.deviceBlocks * c.device.blockSize = block * c.blockBytes := by
      rw [h.bytes, Nat.mul_assoc]
    -- a read leaves the content of the device
    have hadvanced : Coherent { c with device := c.device.advance } content pending :=
      h.device rfl rfl fun _ => .inl fun _ _ => rfl
    simp only [Cache.fill]
    rw [hd]
    rcases hread with ⟨hok, hdata⟩ | hfail
    · rw [if_pos hok, hdata, hat]
      refine .inr ⟨{ c with device := c.device.advance }.setEntry i
        { c.entries i with valid := false }, _, by rw [Cache.setEntry_setEntry], ?_⟩
      exact ⟨hadvanced.drop hpins hdirty rfl hdirty hpins, by simp, hothers rfl rfl, rfl, rfl, rfl,
        hpins, fun _ => ⟨h.absent block hb habsent, h.absent block hb habsent⟩⟩
    · rw [if_neg (by simp [hfail])]
      exact .inl ⟨_, _, rfl, Result.ok_eq_false.mp hfail,
        hadvanced.drop hpins hdirty rfl hdirty hpins⟩

theorem load_spec (access : Access) (h : Coherent c content pending) (hb : block < c.blockCount)
    (habsent : ∀ j < c.capacity, (c.entries j).valid = true → (c.entries j).block ≠ block) :
    (∃ err c', c.load block access = (.error err, c') ∧ err ≠ .none ∧
        Coherent c' content pending) ∨
      ∃ i d e, c.load block access = (.ok i, d.setEntry i e) ∧
        Loaded content pending block access i d e := by
  cases hvictim : c.victim with
  | none => exact .inl ⟨.deviceError, c, by simp only [Cache.load, hvictim], by simp, h⟩
  | some i =>
    obtain ⟨hi, hpins⟩ := victim_some hvictim
    simp only [Cache.load, hvictim]
    by_cases hdirty : (c.entries i).valid = true ∧ (c.entries i).dirty = true
    · have hback := writeBack_writtenBack h.toSound i
      rw [if_pos (by simp [hdirty])]
      rcases writeBack_cases h hi hdirty.1 with
        ⟨hok, hcoherent, hentries⟩ | ⟨hfail, -, hcoherent⟩
      · -- the victim is clean now, and the rest is as if it had been before
        rw [if_pos hok]
        rcases fill_spec access hcoherent ((hback.pins i).trans hpins)
          (by rw [hentries, Function.update_self]) (by rwa [hback.blockCount])
          (fun j hj hv => by
            rw [hback.capacity] at hj
            rw [(hback.entries j).1] at hv
            rw [(hback.entries j).2]
            exact habsent j hj hv) with herr | ⟨d, e, heq, hl⟩
        · exact .inl herr
        · exact .inr ⟨i, d, e, heq, hl⟩
      · rw [if_neg (by simp [hfail])]
        exact .inl ⟨_, _, rfl, Result.ok_eq_false.mp hfail, hcoherent hdirty.2⟩
    · rw [if_neg (by simpa using hdirty)]
      have hclean : (c.entries i).dirty = false := by
        cases hv : (c.entries i).valid with
        | false => exact h.unused i hi hv
        | true => simpa [hv] using hdirty
      rcases fill_spec access h hpins hclean hb habsent with herr | ⟨d, e, heq, hl⟩
      · exact .inl herr
      · exact .inr ⟨i, d, e, heq, hl⟩

/-! ## Acquiring a block -/

/-- What acquiring a block does to the logical content: an overwrite zeroes it. -/
def acquiredContent (size block : ℕ) (content : Bytes) : Access → Bytes
  | .read => content
  | .overwrite => content.splice (block * size) size fun _ => 0

theorem acquiredContent_other {size b : ℕ} (access : Access) (hb : b ≠ block) :
    SameBlock size b (acquiredContent size block content access) content := by
  intro k hk
  cases access with
  | read => rfl
  | overwrite =>
    rw [acquiredContent]
    exact Bytes.splice_otherBlock hb hk

theorem Coherent.counters {clock hits misses : ℕ} (h : Coherent c content pending) :
    Coherent { c with clock, hits, misses } content pending :=
  ⟨h.toSound.counters _ _ _, h.ready, h.bytes, h.unused, h.data, h.clean, h.absent, h.held⟩

theorem pin_setEntry (access : Access) :
    (c.setEntry i e).pin i access =
      { c with clock := (c.clock + 1) % clockLimit }.setEntry i
        (Cache.pinEntry e access ((c.clock + 1) % clockLimit)) := by
  simp only [Cache.pin, Cache.setEntry, Function.update_self, Function.update_idem]

/-- Pinning an entry for the block, in a cache that is coherent without it. -/
theorem pin_coherent (access : Access) (h : Coherent c content pending) (hi : i < c.capacity)
    (hvalid : e.valid = true) (hrange : e.block < c.blockCount) (hpins : e.pins + 1 < pinLimit)
    (hothers : ∀ j < c.capacity, j ≠ i → (c.entries j).valid = true →
      (c.entries j).block ≠ e.block)
    (hold : (c.entries i).valid = true → (c.entries i).block = e.block)
    (hdata : access = .read → HoldsBlock c.blockBytes e.block e.data content)
    (hclean : access = .read → e.dirty = false → ¬ pending i →
      SameBlock c.blockBytes e.block c.device.content content) :
    Coherent ((c.setEntry i e).pin i access) (acquiredContent c.blockBytes e.block content access)
      pending := by
  rw [pin_setEntry]
  refine Coherent.replace h.counters hi hvalid (fun b hb => acquiredContent_other access hb) ?_ ?_
    (fun j _ => Iff.rfl) (fun _ => ?_) hrange hothers hold
  · cases access with
    | read => exact hdata rfl
    | overwrite =>
      intro k hk
      exact (Bytes.splice_add hk).symm
  · cases access with
    | read => exact hclean rfl
    | overwrite => exact fun hd => by simp [Cache.pinEntry] at hd
  · rw [Cache.pinEntry, Nat.mod_eq_of_lt hpins]
    exact Nat.succ_ne_zero _

/-- What `acquire` leaves of the content. -/
def Acquired (size block : ℕ) (content : Bytes) (pending : ℕ → Prop) (access : Access) :
    Except Error ℕ × Cache → Prop
  | (.error err, c') => err ≠ .none ∧ Coherent c' content pending
  | (.ok i, c') => Coherent c' (acquiredContent size block content access) pending ∧
    (access = .overwrite → (c'.entries i).dirty = true)

theorem pin_dirty (c : Cache) (i : ℕ) : ((c.pin i .overwrite).entries i).dirty = true := by
  rw [Cache.pin, Cache.setEntry_self]
  rfl

/-- **`acquire`**: it fails and leaves the logical content, or its buffer has the block. -/
theorem acquire_spec (h : Coherent c content pending)
    (hpins : ∀ i < c.capacity, (c.entries i).pins + 1 < pinLimit) (block : ℕ) (access : Access) :
    Acquired c.blockBytes block content pending access (c.acquire block access) := by
  unfold Cache.acquire
  rw [if_neg (by simp [h.ready])]
  by_cases hb : block ≥ c.blockCount
  · rw [if_pos hb]
    exact ⟨by simp, h⟩
  rw [if_neg hb]
  have hb : block < c.blockCount := Nat.lt_of_not_le hb
  cases hfind : c.find block with
  | some i =>
    obtain ⟨hi, hv, rfl⟩ := find_some hfind
    have hcoherent : Coherent { c with hits := (c.hits + 1) % clockLimit } content pending :=
      h.counters
    -- pinning an entry as it stands
    have hpinned := pin_coherent access hcoherent hi hv hb (hpins i hi)
      (fun j hj hji hvj heq => hji (h.unique j hj i hi hvj hv heq)) (fun _ => rfl)
      (fun _ => h.data i hi hv) fun _ hd hp => h.clean i hi hv hd hp
    rw [Cache.setEntry, Function.update_eq_self] at hpinned
    exact ⟨hpinned, fun hover => hover ▸ pin_dirty _ i⟩
  | none =>
    have hcoherent : Coherent { c with misses := (c.misses + 1) % clockLimit } content pending :=
      h.counters
    obtain ⟨-, hsteady, hok⟩ := load_sound hcoherent.toSound hb (find_none hfind) access
    rcases load_spec access hcoherent hb (find_none hfind) with
      ⟨err, c', heq, herr, hcoherent'⟩ | ⟨i, d, e, heq, hl⟩
    · rw [heq]
      exact ⟨herr, hcoherent'⟩
    · rw [heq] at hsteady hok ⊢
      have hi : i < d.capacity := hsteady.capacity ▸ (hok i rfl).1
      have hpinned := pin_coherent access hl.coherent hi hl.valid
        (by rw [hl.bound]; exact hsteady.blockCount ▸ hb) (by rw [hl.pins]; decide)
        (fun j hj _ hv => by rw [hl.bound]; exact hl.absent j hj hv)
        (fun hv => by simp [hl.empty] at hv)
        (fun hread => by rw [hl.bound]; exact (hl.data hread).1)
        fun hread _ _ => by rw [hl.bound]; exact (hl.data hread).2
      rw [hl.bound, show d.blockBytes = c.blockBytes from hsteady.blockBytes] at hpinned
      exact ⟨hpinned, fun hover => hover ▸ pin_dirty _ i⟩

end ShirleysOS.Storage
