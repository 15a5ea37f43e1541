import ShirleysOS.Ext4.Image
import ShirleysOS.Ext4.Scan

/-!
# Mounted volumes, whatever is on the disk

A session is a mount that succeeds and any calls after it that return. Nothing is assumed of the
disk. Whatever it holds, the driver fetches only device blocks that have bytes of the volume or of
the superblock, and touches its buffers only where they are. Device blocks are fetched whole, so the
last one may go beyond the volume when the volume does not end where a device block does.
-/

namespace ShirleysOS.Ext4

open Lib Storage

variable {d d' : Device} {v v' : Volume} {log : List (ℕ × ℕ)}

/-! ## Mounting -/

/-- The superblock of a device. -/
def superblockOf (d : Device) : Bytes := (d.content.slice superblockOffset).trim superblockBytes

/-- The image on a device. -/
def imageOf (d : Device) : Image := ⟨superblockFields (superblockOf d), d.content⟩

/-- Nothing is remembered. -/
structure Fresh (address : ℕ) (v : Volume) : Prop where
  self : v.self = address
  loaded : v.loaded = ⟨0, 0⟩
  listing : v.listing = ⟨0, 0, 0⟩
  extent : v.extent = ⟨0, 0, 0, 0⟩

/-- **A mount that succeeds**: the superblock passes its checks, and nothing is remembered. -/
theorem mount_sound (d : Device) (self : ℕ) (bounceFits blockFits : Bool) :
    (mount self d.blockSize d.blockCount bounceFits blockFits).Always d.answers
      (Near d (superblockFields (superblockOf d))) fun out => ∀ v, out = .ok v →
        Sound d v ∧ Fresh self v ∧ v.layout = superblockFields (superblockOf d) ∧
          (512 ≤ d.blockSize ∧ d.blockSize ≤ maxDeviceBlock ∧
            d.blockSize &&& (d.blockSize - 1) = 0) ∧ bounceFits = true ∧ blockFits = true := by
  rw [mount]
  split
  · exact fun v h => nomatch h
  next hblock =>
  have hpos : 0 < d.blockSize := by omega
  split
  · exact fun v h => nomatch h
  next hdevice =>
  split
  · exact fun v h => nomatch h
  next hbounce =>
  rw [Io.always_bind]
  refine (readBytes_always hpos fun first count htouches b hlow hhigh => ?_).mono fun out hout => ?_
  · obtain ⟨x, hx, hx', hb⟩ := htouches b hlow hhigh
    exact ⟨x, hb, .inr ⟨hx, hx'⟩⟩
  cases out with
  | error short => exact fun v h => nomatch h
  | ok sb =>
    obtain rfl : sb = superblockOf d := hout sb rfl
    dsimp only
    cases hsb : superblock (superblockOf d) (d.blockCount * d.blockSize % 2 ^ 64) with
    | error error => exact fun v h => nomatch h
    | ok l =>
      obtain ⟨hl, hfits, rfl⟩ := superblock_ok hsb
      dsimp only
      split
      · exact fun v h => nomatch h
      next hfitsBlock =>
      rw [Io.always_bind]
      -- the volume as `mount` sets it up, before it loads the root
      have hs : Sound d {
          self
          deviceBlock := d.blockSize
          layout := superblockFields (superblockOf d)
          block := fun _ => 0
          loaded := ⟨0, 0⟩
          listing := ⟨0, 0, 0⟩
          extent := ⟨0, 0, 0, 0⟩
          touched := []
          moves := [] } :=
        ⟨rfl, hpos, hl, Nat.le_trans hfits (Nat.mod_le _ _), .inl rfl, .inl rfl,
          Nat.two_pow_pos 64, fun _ h => nomatch h⟩
      refine Io.Always.mono (loadInode_sound hs rootInode) fun out h => ?_
      obtain ⟨hs', ⟨touched, hv⟩, -⟩ := h
      obtain ⟨root, v'⟩ := out
      dsimp only at hs' hv ⊢
      cases root with
      | none => exact fun v h => nomatch h
      | some inode =>
        intro v h
        split at h
        · obtain rfl := Except.ok.inj h
          rw [hv] at hs' ⊢
          exact ⟨hs', ⟨rfl, rfl, rfl, rfl⟩, rfl, ⟨by omega, by omega, by omega⟩,
            by simpa using hbounce, by simpa using hfitsBlock⟩
        · cases h

/-! ## Sessions -/

/-- **A session**: the device and the volume after a mount that succeeds and calls that return, and
the reads that they have made. -/
inductive Session : Device → Volume → List (ℕ × ℕ) → Prop
  | mount {d d' : Device} {v : Volume} {self : ℕ} {bounceFits blockFits : Bool}
      (h : runDevice (Ext4.mount self d.blockSize d.blockCount bounceFits blockFits) d =
        (.ok v, d')) :
      Session d' v (fetched (Ext4.mount self d.blockSize d.blockCount bounceFits blockFits) d)
  | call {d d' : Device} {v v' : Volume} {log : List (ℕ × ℕ)} {fuel : ℕ} {c : Call}
      {out : Outcome} (hbefore : Session d v log)
      (h : runDevice (Ext4.call fuel c v) d = ((some out, v'), d')) :
      Session d' v' (fetched (Ext4.call fuel c v) d ++ log)

theorem Sound.same (h : Sound d v) (hsame : Device.Same d d') : Sound d' v :=
  { h with
    device := h.device.trans hsame.blockSize.symm
    block := hsame.blockSize ▸ h.block
    fits := by rw [hsame.blockSize, hsame.blockCount]; exact h.fits }

theorem near_same {l : Layout} {first count : ℕ} (hsame : Device.Same d d') :
    Near d' l first count ↔ Near d l first count := by
  unfold Near
  rw [hsame.blockSize]

/-- What holds throughout a session. -/
structure Held (d : Device) (v : Volume) (log : List (ℕ × ℕ)) : Prop where
  sound : Sound d v
  blockSize : 512 ≤ d.blockSize ∧ d.blockSize ≤ maxDeviceBlock ∧
    d.blockSize &&& (d.blockSize - 1) = 0
  near : ∀ r ∈ log, Near d v.layout r.1 r.2

/-- **Every session is sound**, and every read is near the volume. -/
theorem Session.held (h : Session d v log) : Held d v log := by
  induction h with
  | @mount d d' v self bounceFits blockFits h =>
    have hmount := mount_sound d self bounceFits blockFits
    obtain ⟨hout, hsame⟩ := runDevice_of_always hmount
    have hnear := fetched_of_always hmount
    rw [h] at hout hsame
    obtain ⟨hs, -, hlayout, hblock, -⟩ := hout v rfl
    refine ⟨hs.same hsame, by rw [hsame.blockSize]; exact hblock, fun r hr => ?_⟩
    rw [near_same hsame, hlayout]
    exact hnear r hr
  | @call d d' v v' log fuel c out hbefore h ih =>
    have hcall := call_scanned ih.sound fuel c
    obtain ⟨⟨bound, new, hscanned, -, -⟩, hsame⟩ := runDevice_of_always hcall
    have hnear := fetched_of_always hcall
    rw [h] at hscanned hsame
    refine ⟨hscanned.sound.same hsame, by rw [hsame.blockSize]; exact ih.blockSize,
      fun r hr => ?_⟩
    rw [near_same hsame, show v'.layout = v.layout from hscanned.layout]
    rcases List.mem_append.mp hr with hr | hr
    · exact hnear r hr
    · exact ih.near r hr

theorem session_of_mount
    (h : (runDevice (mount 0 d.blockSize d.blockCount true true) d).1.toOption.isSome = true) :
    ∃ d' v, Session d' v (fetched (mount 0 d.blockSize d.blockCount true true) d) ∧
      Device.Same d d' ∧ v.self = 0 ∧ v.layout = superblockFields (superblockOf d) := by
  obtain ⟨hout, hsame⟩ := runDevice_of_always (mount_sound d 0 true true)
  cases hrun : runDevice (mount 0 d.blockSize d.blockCount true true) d with
  | mk out d' =>
    rw [hrun] at h hout hsame
    cases out with
    | error e => cases h
    | ok v =>
      obtain ⟨-, hfresh, hlayout, -⟩ := hout v rfl
      exact ⟨d', v, Session.mount hrun, hsame, hfresh.self, hlayout⟩

/-! ## Confinement -/

/-- A device block is a power of two between 512 and 4096. -/
theorem deviceBlock_cases {b : ℕ} (hlow : 512 ≤ b) (hhigh : b ≤ maxDeviceBlock)
    (hpower : b &&& (b - 1) = 0) : b = 512 ∨ b = 1024 ∨ b = 2048 ∨ b = 4096 := by
  unfold maxDeviceBlock at hhigh
  -- a number that is not the power of two below it has the highest bit in common with the one
  -- before it
  have hpow : ∀ k, 2 ^ k ≤ b → b < 2 ^ (k + 1) → b = 2 ^ k := by
    intro k hk hk'
    by_contra hne
    have hbit : ∀ x, 2 ^ k ≤ x → x < 2 ^ (k + 1) → x.testBit k = true := by
      intro x hx hx'
      have hone : x / 2 ^ k = 1 := Nat.div_eq_of_lt_le (by omega) (by omega)
      rw [Nat.testBit_eq_decide_div_mod_eq, hone]
      rfl
    have hand := congrArg (fun x => x.testBit k) hpower
    simp only [Nat.testBit_and, Nat.zero_testBit, hbit b hk hk',
      hbit (b - 1) (by omega) (by omega)] at hand
    cases hand
  have h₉ := hpow 9
  have h₁₀ := hpow 10
  have h₁₁ := hpow 11
  have h₁₂ := hpow 12
  omega

/-- When the volume ends where a device block does, every byte of a read that is near the volume is
one of the volume or of the superblock. -/
theorem near_exact {l : Layout} {first count : ℕ}
    (hblock : d.blockSize = 512 ∨ d.blockSize = 1024 ∨ d.blockSize = 2048 ∨ d.blockSize = 4096)
    (hpos : 0 < l.volumeBytes) (hdvd : d.blockSize ∣ l.volumeBytes)
    (h : Near d l first count) {y : ℕ} (hlow : first * d.blockSize ≤ y)
    (hhigh : y < (first + count) * d.blockSize) :
    y < l.volumeBytes ∨ superblockOffset ≤ y ∧ y < superblockOffset + superblockBytes := by
  have hblockPos : 0 < d.blockSize := by omega
  obtain ⟨x, hx, hallowed⟩ := h (y / d.blockSize) ((Nat.le_div_iff_mul_le hblockPos).mpr hlow)
    ((Nat.div_lt_iff_lt_mul hblockPos).mpr hhigh)
  obtain ⟨blocks, hblocks⟩ := hdvd
  rw [hblocks] at hpos hallowed ⊢
  rcases hblock with h | h | h | h <;> rw [h] at hx hallowed hpos ⊢ <;>
    simp only [superblockOffset, superblockBytes] at hallowed ⊢ <;> omega

/-- **Confinement, whatever is on the disk**: every device block that is fetched has a byte of the
volume or of the superblock, and every access to `i_block`, to the shared buffer and to the name of
an entry is inside it. When the volume ends where a device block does, every byte that is fetched is
one of the volume or of the superblock. -/
theorem session_confined (h : Session d v log) :
    (∀ r ∈ log, Near d v.layout r.1 r.2) ∧ (∀ a ∈ v.touched, a.InBounds v.layout) ∧
      (∀ fuel c, (∀ r ∈ fetched (call fuel c v) d, Near d v.layout r.1 r.2) ∧
        ∀ a ∈ (runDevice (call fuel c v) d).1.2.touched, a.InBounds v.layout) ∧
      (d.blockSize ∣ v.layout.volumeBytes →
        ∀ r, (r ∈ log ∨ ∃ fuel c, r ∈ fetched (call fuel c v) d) →
          ∀ y, r.1 * d.blockSize ≤ y → y < (r.1 + r.2) * d.blockSize →
            y < v.layout.volumeBytes ∨
              superblockOffset ≤ y ∧ y < superblockOffset + superblockBytes) := by
  obtain ⟨hs, hblock, hnear⟩ := h.held
  have hcalls : ∀ fuel c, (∀ r ∈ fetched (call fuel c v) d, Near d v.layout r.1 r.2) ∧
      ∀ a ∈ (runDevice (call fuel c v) d).1.2.touched, a.InBounds v.layout := by
    intro fuel c
    have hcall := call_scanned hs fuel c
    obtain ⟨⟨bound, new, hscanned, -, -⟩, -⟩ := runDevice_of_always hcall
    refine ⟨fetched_of_always hcall, fun a ha => ?_⟩
    rw [← hscanned.layout]
    exact hscanned.sound.touched a ha
  refine ⟨hnear, hs.touched, hcalls, fun hdvd r hr y hlow hhigh => ?_⟩
  have hpos : 0 < v.layout.volumeBytes :=
    Nat.mul_pos hs.layout.count.1 hs.layout.blockBytes_pos
  refine near_exact (deviceBlock_cases hblock.1 hblock.2.1 hblock.2.2) hpos hdvd ?_ hlow hhigh
  rcases hr with hr | ⟨fuel, c, hr⟩
  · exact hnear r hr
  · exact (hcalls fuel c).1 r hr

/-! ## A sample -/

/-- The state after some calls, `none` when one of them does not return. -/
def perform (fuel : ℕ) : List Call → Volume × Device → Option (Volume × Device)
  | [], s => some s
  | c :: calls, s =>
    let r := runDevice (call fuel c s.1) s.2
    if r.1.1.isSome then perform fuel calls (r.1.2, r.2) else none

theorem Session.perform (h : Session d v log) {fuel : ℕ} {calls : List Call} {s' : Volume × Device}
    (hrun : Ext4.perform fuel calls (v, d) = some s') :
    ∃ log', Session s'.2 s'.1 log' ∧ Device.Same d s'.2 := by
  induction calls generalizing d v log with
  | nil =>
    obtain rfl := Option.some.inj hrun
    exact ⟨log, h, Device.Same.refl _⟩
  | cons c calls ih =>
    rw [Ext4.perform] at hrun
    split at hrun
    · next hreturns =>
      obtain ⟨out, hout⟩ := Option.isSome_iff_exists.mp hreturns
      obtain ⟨-, hsame⟩ := runDevice_of_always (call_scanned h.held.sound fuel c)
      obtain ⟨log', hsession, hsame'⟩ := ih (h.call (Prod.ext (Prod.ext hout rfl) rfl)) hrun
      exact ⟨log', hsession, hsame.trans hsame'⟩
    · cases hrun

/-- Two device blocks of 4096 bytes with a volume of six blocks of 1024 bytes. The inode 3 is an
encrypted file of five bytes, the inode 4 is a file of three bytes with an extent tree, and the root
directory has both. -/
def sampleDevice : Device where
  blockSize := 4096
  blockCount := 2
  content := .ofTable [(1024, 8), (1028, 6), (1044, 1), (1056, 8), (1064, 8), (1080, 0x53),
    (1081, 0xEF), (2056, 4), (3072, 97), (3073, 98), (3074, 99), (4224, 0xED), (4225, 0x41),
    (4229, 4), (4250, 2), (4264, 5), (4352, 0xA4), (4353, 0x81), (4356, 5), (4378, 1), (4385, 8),
    (4480, 0xA4), (4481, 0x81), (4484, 3), (4506, 1), (4514, 8), (4520, 0x0A), (4521, 0xF3),
    (4522, 1), (4524, 4), (4536, 1), (4540, 3), (5120, 4), (5124, 12), (5126, 1), (5128, 97),
    (5132, 3), (5136, 0xF4), (5137, 3), (5138, 1), (5140, 98)]
  faults := fun _ => none
  accesses := 0

theorem sampleDevice_session :
    ∃ d v, Session d v (fetched (mount 0 4096 2 true true) sampleDevice) ∧
      Device.Same sampleDevice d ∧ v.self = 0 ∧ v.layout.volumeBytes = 6144 := by
  have hmount : (runDevice (mount 0 4096 2 true true) sampleDevice).1.toOption.isSome = true := by
    set_option maxRecDepth 100000 in
    decide +kernel
  have hbytes : (superblockFields (superblockOf sampleDevice)).volumeBytes = 6144 := by
    decide +kernel
  obtain ⟨d, v, hsession, hsame, hself, hlayout⟩ := session_of_mount (d := sampleDevice) hmount
  exact ⟨d, v, hsession, hsame, hself, hlayout ▸ hbytes⟩

/-- A node of the volume at the address zero. -/
def sampleNode (number size : ℕ) : Vfs.Node ℕ :=
  { id := number, type := .file, size, name := [97], filesystem := 0, path := [47, 97] }

/-- A call that reads a file, and one that lists the root directory. -/
def sampleCalls : List Call :=
  [.read (sampleNode 4 3) 0 3 true, .list { sampleNode 2 1024 with type := .directory } 0]

/-- After these calls everything that can be remembered is. -/
theorem sampleDevice_filled :
    ∃ d v log, Session d v log ∧ Device.Same sampleDevice d ∧ v.loaded = ⟨2, 0⟩ ∧
      v.listing = ⟨2, 1, 12⟩ ∧ v.extent = ⟨4, 0, 1, 3⟩ := by
  have hfilled : (match runDevice (mount 0 4096 2 true true) sampleDevice with
      | (.error _, _) => none
      | (.ok v, d) => (perform 8 sampleCalls (v, d)).map fun s =>
        (s.1.loaded, s.1.listing, s.1.extent)) = some (⟨2, 0⟩, ⟨2, 1, 12⟩, ⟨4, 0, 1, 3⟩) := by
    set_option maxRecDepth 100000 in
    decide +kernel
  obtain ⟨-, hsame⟩ := runDevice_of_always (mount_sound sampleDevice 0 true true)
  change Device.Same _ (runDevice (mount 0 4096 2 true true) sampleDevice).2 at hsame
  cases hrun : runDevice (mount 0 4096 2 true true) sampleDevice with
  | mk out d =>
    rw [hrun] at hfilled hsame
    cases out with
    | error error => cases hfilled
    | ok v =>
      obtain ⟨s', hperform, hcaches⟩ := Option.map_eq_some_iff.mp hfilled
      simp only [Prod.mk.injEq] at hcaches
      obtain ⟨log, hsession, hsame'⟩ := (Session.mount (d := sampleDevice) hrun).perform hperform
      exact ⟨_, _, log, hsession, hsame.trans hsame', hcaches⟩

/-- The sample after the calls: nothing has been touched out of bounds, and nothing will be in
another read. -/
theorem session_confined_sample :
    ∃ d v log, Session d v log ∧ v.listing = ⟨2, 1, 12⟩ ∧
      (∀ r ∈ log, Near d v.layout r.1 r.2) ∧ (∀ a ∈ v.touched, a.InBounds v.layout) ∧
      (∀ r ∈ fetched (call 8 (.read (sampleNode 4 3) 1 2 true) v) d, Near d v.layout r.1 r.2) ∧
      ∀ a ∈ (runDevice (call 8 (.read (sampleNode 4 3) 1 2 true) v) d).1.2.touched,
        a.InBounds v.layout := by
  obtain ⟨d, v, log, hsession, -, -, hlisting, -⟩ := sampleDevice_filled
  obtain ⟨hlog, htouched, hcalls, -⟩ := session_confined hsession
  exact ⟨d, v, log, hsession, hlisting, hlog, htouched, hcalls 8 _⟩

/-- The last device block of the sample is fetched whole, and the volume ends inside of it: bytes
are fetched that are neither of the volume nor of the superblock. -/
theorem session_fetches_beyond :
    ∃ d v log, Session d v log ∧ d.blockSize = 4096 ∧ d.blockCount * d.blockSize < 2 ^ 64 ∧
      ∃ r ∈ log, ∃ y, r.1 * d.blockSize ≤ y ∧ y < (r.1 + r.2) * d.blockSize ∧
        ¬(y < v.layout.volumeBytes ∨
          superblockOffset ≤ y ∧ y < superblockOffset + superblockBytes) := by
  obtain ⟨d, v, hsession, hsame, -, hbytes⟩ := sampleDevice_session
  have hread : (1, 1) ∈ fetched (mount 0 4096 2 true true) sampleDevice := by
    set_option maxRecDepth 100000 in
    decide +kernel
  refine ⟨d, v, _, hsession, hsame.blockSize, ?_, (1, 1), hread, 8191, ?_⟩
  · rw [hsame.blockSize, hsame.blockCount]
    decide
  · rw [hsame.blockSize, hbytes]
    decide

end ShirleysOS.Ext4
