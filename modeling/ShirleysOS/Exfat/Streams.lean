import ShirleysOS.Exfat.Mount
import ShirleysOS.Storage.ByteRange

/-!
# Streams on a device

A stream is stored in a chain of clusters, one after the other or linked by the FAT. Reading it
gives its bytes however its clusters lie, or an error when the device reports one.
-/

namespace ShirleysOS.Exfat

open Lib Storage

/-- A volume's device: a read inside it gets what it holds or, where `fails` says that it may, an
error. -/
structure Serves (g : Volume) (d : Device) (fails : Prop) (A : Answers Error) : Prop where
  blockSize : g.device.blockSize = d.blockSize
  positive : 0 < d.blockSize
  answers : ∀ first count r, first + count ≤ d.blockCount → A first count r →
    r = .ok (d.content.slice (first * d.blockSize)) ∨ fails ∧ ∃ e, e ≠ .none ∧ r = .error e

variable {g : Volume} {d : Device} {fails : Prop} {A : Answers Error}

theorem Serves.replies (hsize : g.device.blockSize = d.blockSize) (hpos : 0 < d.blockSize) :
    Serves g d True d.replies where
  blockSize := hsize
  positive := hpos
  answers first count r _ hr := by
    rcases hr with ⟨⟨e, rfl⟩ | ⟨-, rfl⟩, hne⟩
    · exact .inr ⟨trivial, e, fun h => hne (h ▸ rfl), rfl⟩
    · exact .inl rfl

theorem Serves.exact (hsize : g.device.blockSize = d.blockSize) (hpos : 0 < d.blockSize) :
    Serves g d False d.exact where
  blockSize := hsize
  positive := hpos
  answers first count r hin hr := by
    rw [Device.exact, if_pos hin] at hr
    exact .inl hr

/-- What a read of `length` bytes ends with: all of them, or an error. -/
def Got (fails : Prop) (length : ℕ) (bytes : Bytes) (out : Result × Bytes) : Prop :=
  out = (⟨length, .none⟩, bytes.trim length) ∨ fails ∧ out.1.ok = false

/-! ## Bytes -/

section Bytes

variable {offset length : ℕ} {s : State}

/-- How the driver reports what it has read. -/
def report (length : ℕ) : Except ShortRead Bytes → Result × Bytes
  | .ok data => (⟨length, .none⟩, data)
  | .error short => (⟨short.transferred, short.error⟩, short.data)

/-- The loop of the driver is the one of `Storage.readBytes`. -/
theorem readBytesLoop_eq (hblock : 0 < g.device.blockSize) (fuel done : ℕ) (out : Bytes)
    (hdone : done ≤ length) (hfuel : length ≤ done + fuel) :
    readBytesLoop g offset length fuel done out s =
      (Storage.readBytesLoop g.device.blockSize offset length fuel done out).bind fun r =>
        .pure (report length r, s) := by
  induction fuel generalizing done out with
  | zero =>
    obtain rfl : done = length := by omega
    rfl
  | succ fuel ih =>
    rw [readBytesLoop, Storage.readBytesLoop]
    by_cases hlt : done < length
    · have hwithin := Nat.mod_lt (offset + done) hblock
      rw [if_pos hlt, if_pos hlt]
      dsimp only
      -- whole blocks at once, others through the bounce buffer
      split
      · next hwhole =>
        have hcount := Nat.div_mul_le_self (length - done) g.device.blockSize
        have hbytes := Nat.mul_le_mul_right g.device.blockSize (Nat.div_pos hwhole.2 hblock)
        refine congrArg (Io.read _ _) (funext fun r => ?_)
        cases r with
        | error e => rfl
        | ok data => exact ih _ _ (by omega) (by omega)
      · have htake (a b : ℕ) : (if a < b then a else b) = min a b := by split <;> omega
        rw [htake]
        refine congrArg (Io.read _ _) (funext fun r => ?_)
        cases r with
        | error e => rfl
        | ok bounce => exact ih _ _ (by omega) (by omega)
    · rw [if_neg hlt, if_neg hlt]
      obtain rfl : done = length := by omega
      rfl

/-- **Bytes** are read as the device holds them. -/
theorem always_readBytes (h : Serves g d fails A)
    (hrange : offset + length ≤ d.blockCount * d.blockSize) :
    always A anyRead (readBytes g offset length)
      (fun out s' => s' = s ∧ Got fails length (d.content.slice offset) out) s := by
  have hA : Gives d (fun e => fails ∧ e ≠ .none) A offset length := by
    intro first count r htouches hcount hr
    rcases h.answers first count r (htouches.inside hrange hcount) hr with hr | ⟨hf, e, he, rfl⟩
    · exact .inl hr
    · exact .inr ⟨e, ⟨hf, he⟩, rfl⟩
  have hread := readBytes_gives h.positive (fun _ _ _ => trivial : ∀ _ _, _ → anyRead _ _) hA
  rw [always, readBytes, readBytesLoop_eq (by rw [h.blockSize]; exact h.positive) _ _ _
    (Nat.zero_le _) (Nat.le_add_left _ _), h.blockSize]
  refine Io.always_bind.mpr (hread.mono fun out hout => ⟨rfl, ?_⟩)
  cases out with
  | ok data => exact .inl (congrArg _ hout)
  | error short => exact .inr ⟨hout.1, beq_false_of_ne hout.2⟩

end Bytes

/-! ## Clusters -/

/-- The first `count` clusters of a stream are those of `chain`, on the device, and hold the whole
of it. -/
structure Chain (g : Volume) (d : Device) (stream : Stream) (chain : ℕ → ℕ) (count : ℕ) :
    Prop where
  first : chain 0 = stream.firstCluster
  valid : ∀ i < count, firstDataCluster ≤ chain i ∧ chain i ≤ g.clusterCount + 1
  fits : count ≤ g.clusterCount
  contiguous : stream.contiguous = true → ∀ i, i + 1 < count → chain (i + 1) = chain i + 1
  linked : stream.contiguous = false → ∀ i, i + 1 < count →
    g.fatOffset + chain i * 4 + 4 ≤ d.blockCount * d.blockSize ∧
      le32 d.content (g.fatOffset + chain i * 4) = chain (i + 1)
  stored : ∀ i < count, g.position (chain i) + g.clusterBytes ≤ d.blockCount * d.blockSize
  covers : stream.length ≤ count * g.clusterBytes

/-- The bytes that the clusters of a chain hold. -/
def chainBytes (g : Volume) (content : Bytes) (chain : ℕ → ℕ) : Bytes := fun offset =>
  content (g.position (chain (offset / g.clusterBytes)) + offset % g.clusterBytes)

/-- When the cursor is about a stream, it is on its chain. -/
def RightCursor (stream : Stream) (chain : ℕ → ℕ) (count : ℕ) (s : State) : Prop :=
  s.cursor.firstCluster = stream.firstCluster → s.cursor.index < count →
    s.cursor.cluster = chain s.cursor.index

variable {stream : Stream} {chain : ℕ → ℕ} {count : ℕ} {s : State}

theorem Chain.contiguous_eq (h : Chain g d stream chain count)
    (hcontiguous : stream.contiguous = true) {i : ℕ} (hi : i < count) :
    chain i = stream.firstCluster + i := by
  induction i with
  | zero => exact h.first
  | succ i ih => rw [h.contiguous hcontiguous i hi, ih (by omega), Nat.add_assoc]

theorem chainBytes_within {content : Bytes} {place j : ℕ}
    (h : place % g.clusterBytes + j < g.clusterBytes) :
    chainBytes g content chain (place + j) =
      content (g.position (chain (place / g.clusterBytes)) + place % g.clusterBytes + j) := by
  have hpos : 0 < g.clusterBytes := by omega
  have hdivision := Nat.div_add_mod place g.clusterBytes
  have hdiv : (place + j) / g.clusterBytes = place / g.clusterBytes := by
    rw [Nat.div_eq_iff hpos]
    rw [Nat.mul_comm] at hdivision
    omega
  have hmod := Nat.div_add_mod (place + j) g.clusterBytes
  rw [hdiv] at hmod
  rw [chainBytes, hdiv]
  congr 1
  omega

variable (h : Serves g d fails A) (hchain : Chain g d stream chain count)
include h hchain

theorem always_fatNext (hlinked : stream.contiguous = false) {i : ℕ} (hi : i + 1 < count) :
    always A anyRead (fatNext g (chain i))
      (fun out s' => s' = s ∧ (out = some (chain (i + 1)) ∨ fails ∧ out = none)) s := by
  have hvalid := hchain.valid i (by omega)
  obtain ⟨hinside, hnext⟩ := hchain.linked hlinked i hi
  rw [fatNext, if_neg (by omega)]
  refine always_bind.mpr ((always_readBytes h hinside).mono ?_)
  rintro out s' ⟨rfl, rfl | ⟨hf, hout⟩⟩
  · have hvalue : le32 ((d.content.slice (g.fatOffset + chain i * 4)).trim 4) 0 =
        chain (i + 1) := by
      rw [← hnext]
      refine Bytes.nat_congr fun j hj => ?_
      rw [Nat.zero_add, Bytes.trim_apply hj, Bytes.slice_apply]
    exact ⟨rfl, .inl (congrArg some hvalue)⟩
  · obtain ⟨result, value⟩ := out
    dsimp only at hout ⊢
    rw [hout]
    exact ⟨rfl, .inr ⟨hf, rfl⟩⟩

theorem always_fatWalk (hlinked : stream.contiguous = false) (n i : ℕ) (hi : i + n < count) :
    always A anyRead (fatWalk g n (chain i))
      (fun out s' => s' = s ∧ (out = some (chain (i + n)) ∨ fails ∧ out = none)) s := by
  induction n generalizing i with
  | zero => exact ⟨rfl, .inl rfl⟩
  | succ n ih =>
    have hvalid := hchain.valid (i + 1) (by omega)
    refine always_bind.mpr ((always_fatNext h hchain hlinked (by omega)).mono ?_)
    rintro out s' ⟨rfl, rfl | ⟨hf, rfl⟩⟩
    · dsimp only
      rw [if_neg (by omega), show i + (n + 1) = i + 1 + n by omega]
      exact ih (i + 1) (by omega)
    · exact ⟨rfl, .inr ⟨hf, rfl⟩⟩

/-- **Clusters** are found along the chain, wherever the cursor is. -/
theorem always_clusterAt (hs : RightCursor stream chain count s) {index : ℕ}
    (hindex : index < count) :
    always A anyRead (clusterAt g stream index)
      (fun out s' => RightCursor stream chain count s' ∧
        (out = some (chain index) ∨ fails ∧ out = none)) s := by
  have hfirst := hchain.valid 0 (by omega)
  have hvalid := hchain.valid index hindex
  have hfits := hchain.fits
  rw [hchain.first] at hfirst
  rw [clusterAt]
  dsimp only
  rw [if_neg (by omega)]
  by_cases hcontiguous : stream.contiguous = true
  · have heq := hchain.contiguous_eq hcontiguous hindex
    rw [if_pos hcontiguous, if_neg (by omega), ← heq]
    exact ⟨hs, .inl rfl⟩
  · rw [Bool.not_eq_true] at hcontiguous
    rw [hcontiguous, if_neg Bool.false_ne_true]
    refine always_bind.mpr (always_get.mpr ?_)
    -- the walk starts at the cursor or at the first cluster, on the chain either way
    obtain ⟨start, hstart, hle⟩ : ∃ start ≤ index,
        (if s.cursor.firstCluster = stream.firstCluster ∧ s.cursor.index ≤ index then
          (s.cursor.cluster, s.cursor.index) else (stream.firstCluster, 0)) =
            (chain start, start) := by
      split
      · next hcursor =>
        exact ⟨s.cursor.index, hcursor.2, by rw [hs hcursor.1 (by omega)]⟩
      · exact ⟨0, Nat.zero_le _, by rw [hchain.first]⟩
    rw [hle]
    refine always_bind.mpr ((always_fatWalk h hchain hcontiguous _ start (by omega)).mono ?_)
    rintro out s' ⟨rfl, rfl | ⟨hf, rfl⟩⟩
    · dsimp only
      rw [show start + (index - start) = index by omega]
      exact ⟨fun _ _ => rfl, .inl rfl⟩
    · exact ⟨hs, .inr ⟨hf, rfl⟩⟩

/-! ## Streams -/

theorem always_readStreamLoop {offset length : ℕ} (hrange : offset + length ≤ stream.length)
    (fuel done : ℕ) (hdone : done ≤ length) (hfuel : length ≤ done + fuel)
    (hs : RightCursor stream chain count s) :
    always A anyRead
      (readStreamLoop g stream offset length fuel done
        (((chainBytes g d.content chain).slice offset).trim done))
      (fun out s' => RightCursor stream chain count s' ∧
        Got fails length ((chainBytes g d.content chain).slice offset) out) s := by
  induction fuel generalizing done s with
  | zero =>
    obtain rfl : done = length := by omega
    exact ⟨hs, .inl rfl⟩
  | succ fuel ih =>
    rw [readStreamLoop]
    by_cases hlt : done < length
    · have hpos : 0 < g.clusterBytes := Nat.two_pow_pos _
      have hcovers := hchain.covers
      have hindex : (offset + done) / g.clusterBytes < count :=
        Nat.div_lt_of_lt_mul (by rw [Nat.mul_comm]; omega)
      have hwithin := Nat.mod_lt (offset + done) hpos
      rw [if_pos hlt]
      -- the cluster of the position, and then the bytes in it
      refine always_bind.mpr ((always_clusterAt h hchain hs hindex).mono ?_)
      rintro cluster s' ⟨hs', rfl | ⟨hf, rfl⟩⟩
      · have hstored := hchain.stored _ hindex
        refine always_bind.mpr ((always_readBytes h (by omega)).mono ?_)
        rintro out s' ⟨rfl, rfl | ⟨hf, hout⟩⟩
        · dsimp only
          rw [if_pos (by rfl), splice_range (fun j hj => ?_) rfl]
          · exact ih _ (by omega) (by omega) hs'
          · rw [Bytes.trim_apply hj, Bytes.slice_apply, chainBytes_within (by omega)]
        · obtain ⟨result, bytes⟩ := out
          dsimp only at hout ⊢
          rw [hout, if_neg Bool.false_ne_true]
          exact ⟨hs', .inr ⟨hf, hout⟩⟩
      · exact ⟨hs', .inr ⟨hf, rfl⟩⟩
    · rw [if_neg hlt]
      obtain rfl : done = length := by omega
      exact ⟨hs, .inl rfl⟩

/-- **Streams** are read as their clusters hold them. -/
theorem always_readStream {offset length : ℕ} (hrange : offset + length ≤ stream.length)
    (hlength : 0 < length) (hs : RightCursor stream chain count s) :
    always A anyRead (readStream g stream offset length)
      (fun out s' => RightCursor stream chain count s' ∧
        Got fails length ((chainBytes g d.content chain).slice offset) out) s := by
  rw [readStream, if_neg (by omega), Nat.min_eq_left (by omega)]
  exact always_readStreamLoop h hchain hrange length 0 (Nat.zero_le _) (Nat.le_add_left _ _) hs

end ShirleysOS.Exfat
