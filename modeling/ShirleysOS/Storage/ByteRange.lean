import ShirleysOS.Storage.Reading

/-!
# Reading any range of bytes

A file system reads bytes from any offset on: whole blocks at once where the range allows it, and
the blocks at its ends one by one through a buffer of one block. Source: `Volume::read_bytes` of
`kernel/fs/ext4.cpp`.
-/

namespace ShirleysOS.Storage

open Lib

/-- A read that failed: how many bytes had been read, the error, and the bytes. -/
structure ShortRead where
  transferred : ℕ
  error : Error
  data : Bytes

/-- The loop of `read_bytes` with the bytes read so far, which are `done`: an aligned stretch of
whole blocks is read at once, anything else block by block. -/
def readBytesLoop (block offset length : ℕ) :
    ℕ → ℕ → Bytes → Io Error (Except ShortRead Bytes)
  | 0, _, out => .pure (.ok out)
  | fuel + 1, done, out =>
    if done < length then
      let index := (offset + done) / block
      let within := (offset + done) % block
      let remaining := length - done
      if within = 0 ∧ block ≤ remaining then
        let count := remaining / block
        .read index count fun
          | .error e => .pure (.error ⟨done, e, out⟩)
          | .ok data =>
            readBytesLoop block offset length fuel (done + count * block)
              (out.splice done (count * block) data)
      else
        .read index 1 fun
          | .error e => .pure (.error ⟨done, e, out⟩)
          | .ok bounce =>
            let take := if block - within < remaining then block - within else remaining
            readBytesLoop block offset length fuel (done + take)
              (out.splice done take (bounce.slice within))
    else .pure (.ok out)

/-- `read_bytes`: the bytes, or what was read before an error. Every round reads at least one
byte. -/
def readBytes (block offset length : ℕ) : Io Error (Except ShortRead Bytes) :=
  readBytesLoop block offset length length 0 fun _ => 0

/-- Every one of the `count` blocks from `first` on has a byte of a range. -/
def Touches (block offset length first count : ℕ) : Prop :=
  ∀ b, first ≤ b → b < first + count → ∃ x, offset ≤ x ∧ x < offset + length ∧ x / block = b

variable {A : Answers Error} {R : ℕ → ℕ → Prop} {d : Device} {offset length : ℕ}

theorem touches_whole {block done count : ℕ} (hblock : 0 < block)
    (haligned : (offset + done) % block = 0) (hfits : done + count * block ≤ length) :
    Touches block offset length ((offset + done) / block) count := by
  intro b hlow hhigh
  have hstart := Nat.div_add_mod' (offset + done) block
  rw [haligned, Nat.add_zero] at hstart
  refine ⟨b * block, ?_, ?_, Nat.mul_div_cancel b hblock⟩
  · have := Nat.mul_le_mul_right block hlow
    omega
  · have hlt := Nat.mul_le_mul_right block hhigh
    rw [Nat.succ_mul, Nat.add_mul] at hlt
    omega

theorem touches_one {block done : ℕ} (hdone : done < length) :
    Touches block offset length ((offset + done) / block) 1 := by
  intro b hlow hhigh
  exact ⟨offset + done, Nat.le_add_right _ _, Nat.add_lt_add_left hdone _, by omega⟩

/-- What the loop has read when it goes on. -/
theorem splice_range {c : Bytes} {done count first : ℕ} {data : Bytes}
    (hdata : ∀ j < count, data j = c (offset + done + j)) (hfirst : first = done + count) :
    ((c.slice offset).trim done).splice done count data = (c.slice offset).trim first := by
  rw [hfirst, ← Bytes.trim_splice]
  apply Bytes.splice_congr
  intro j hj
  rw [hdata j hj, Bytes.slice_slice, Bytes.slice_apply, Nat.add_assoc]

/-- Blocks that have bytes of a range on the device are on the device. -/
theorem Touches.inside {block blocks first count : ℕ} (h : Touches block offset length first count)
    (hrange : offset + length ≤ blocks * block) (hcount : 0 < count) :
    first + count ≤ blocks := by
  obtain ⟨x, -, hlast, hblock⟩ := h (first + count - 1) (by omega) (by omega)
  have : x / block < blocks := Nat.div_lt_of_lt_mul (by rw [Nat.mul_comm]; omega)
  omega

theorem exact_of_touches {first count : ℕ} {r : Except Error Bytes}
    (htouches : Touches d.blockSize offset length first count)
    (hrange : offset + length ≤ d.blockCount * d.blockSize) (hcount : 0 < count)
    (hr : d.exact first count r) : r = .ok (d.content.slice (first * d.blockSize)) := by
  rwa [Device.exact, if_pos (htouches.inside hrange hcount)] at hr

/-- A read of blocks that have bytes of a range gets what the device holds, or one of the errors
`E`. -/
def Gives (d : Device) (E : Error → Prop) (A : Answers Error) (offset length : ℕ) : Prop :=
  ∀ first count r, Touches d.blockSize offset length first count → 0 < count → A first count r →
    r = .ok (d.content.slice (first * d.blockSize)) ∨ ∃ e, E e ∧ r = .error e

/-- What reading a range ends with. -/
def Outcome (d : Device) (E : Error → Prop) (offset length : ℕ) :
    Except ShortRead Bytes → Prop
  | .ok data => data = (d.content.slice offset).trim length
  | .error short => E short.error

variable {E : Error → Prop} (hblock : 0 < d.blockSize)
  (hR : ∀ first count, Touches d.blockSize offset length first count → R first count)
include hblock hR

theorem readBytesLoop_gives (hA : Gives d E A offset length) (fuel done : ℕ) (hdone : done ≤ length)
    (hfuel : length ≤ done + fuel) :
    (readBytesLoop d.blockSize offset length fuel done
      ((d.content.slice offset).trim done)).Always A R (Outcome d E offset length) := by
  induction fuel generalizing done with
  | zero =>
    obtain rfl : done = length := by omega
    rfl
  | succ fuel ih =>
    rw [readBytesLoop]
    by_cases hlt : done < length
    · have hstart := Nat.div_add_mod' (offset + done) d.blockSize
      have hwithin := Nat.mod_lt (offset + done) hblock
      rw [if_pos hlt]
      dsimp only
      -- whole blocks at once, or one block through the bounce buffer
      split
      · next hwhole =>
        have hcount := Nat.div_mul_le_self (length - done) d.blockSize
        have hpos : 0 < (length - done) / d.blockSize := Nat.div_pos hwhole.2 hblock
        have hbytes := Nat.mul_le_mul_right d.blockSize hpos
        have htouches : Touches d.blockSize offset length ((offset + done) / d.blockSize)
            ((length - done) / d.blockSize) := touches_whole hblock hwhole.1 (by omega)
        refine ⟨hR _ _ htouches, fun r hr => ?_⟩
        rcases hA _ _ r htouches hpos hr with rfl | ⟨e, he, rfl⟩
        · dsimp only
          rw [splice_range (fun j _ => ?_) rfl]
          · exact ih _ (by omega) (by omega)
          · rw [Bytes.slice_apply, Nat.div_mul_cancel (Nat.dvd_of_mod_eq_zero hwhole.1)]
        · exact he
      · have htouches : Touches d.blockSize offset length _ _ := touches_one hlt
        refine ⟨hR _ _ htouches, fun r hr => ?_⟩
        rcases hA _ _ r htouches Nat.one_pos hr with rfl | ⟨e, he, rfl⟩
        · dsimp only
          rw [splice_range (fun j _ => ?_) rfl]
          · exact ih _ (by split <;> omega) (by split <;> omega)
          · rw [Bytes.slice_slice, Bytes.slice_apply]
            congr 1
            omega
        · exact he
    · rw [if_neg hlt]
      obtain rfl : done = length := by omega
      rfl

/-- **What is read is what the device holds**, and only blocks that have bytes of the range are
fetched. -/
theorem readBytes_gives (hA : Gives d E A offset length) :
    (readBytes d.blockSize offset length).Always A R (Outcome d E offset length) :=
  readBytesLoop_gives hblock hR hA length 0 (Nat.zero_le _) (Nat.le_add_left _ _)

theorem readBytes_always :
    (readBytes d.blockSize offset length).Always d.answers R fun out =>
      ∀ data, out = .ok data → data = (d.content.slice offset).trim length := by
  have hA : Gives d (fun _ => True) d.answers offset length := by
    rintro first count r - - (⟨e, rfl⟩ | ⟨-, rfl⟩)
    · exact .inr ⟨e, trivial, rfl⟩
    · exact .inl rfl
  refine (readBytes_gives hblock hR hA).mono ?_
  rintro out hout data rfl
  exact hout

/-- **When no access fails, the bytes of a range on the device are read.** -/
theorem readBytes_exact (hrange : offset + length ≤ d.blockCount * d.blockSize) :
    (readBytes d.blockSize offset length).Always d.exact R fun out =>
      out = .ok ((d.content.slice offset).trim length) := by
  have hA : Gives d (fun _ => False) d.exact offset length :=
    fun first count r htouches hcount hr => .inl (exact_of_touches htouches hrange hcount hr)
  refine (readBytes_gives hblock hR hA).mono fun out hout => ?_
  cases out with
  | ok data => exact congrArg Except.ok hout
  | error short => exact hout.elim

end ShirleysOS.Storage
