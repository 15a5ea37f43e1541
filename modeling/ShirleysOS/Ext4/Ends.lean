import ShirleysOS.Ext4.Transparent

/-!
# When scans of directories end

A scan goes forward from any position but one in the last block of the `2 ^ 64` bytes that a
position can name. That block is always a hole, and behind it the position is zero again. So a call
returns, and the position of its scan increases, if and only if the scan stays out of that block.
Without large directories no scan gets there, nor does the scan of a directory whose size is at most
`2 ^ 64` less a block.
-/

namespace ShirleysOS.Ext4

open Lib Storage

variable {d : Device} {g : Image} {v v' : Volume} {log : List (ℕ × ℕ)} {α : Type}

/-- The volume without the notes of earlier scans. -/
def Volume.quiet (v : Volume) : Volume := { v with moves := [] }

/-- How the position of the scans of a program changes. -/
def movesOf (d : Device) (v : Volume) (p : Driver α) : List (ℕ × ℕ) :=
  (runDevice (p v.quiet) d).1.2.moves

/-- **A program ends**: it returns when it has enough rounds, and its scans go forward. -/
structure Ends (d : Device) (v : Volume) (p : ℕ → Driver (Option α)) : Prop where
  returns : ∃ fuel out, (runDevice (p fuel v.quiet) d).1.1 = some out
  forward : ∀ fuel, Up (movesOf d v (p fuel))

/-- **The scans of a program stay out of the last block** of what a position can name. -/
def BelowLast (d : Device) (v : Volume) (p : ℕ → Driver (Option α)) : Prop :=
  ∀ fuel, ∀ m ∈ movesOf d v (p fuel), m.1 < 2 ^ 64 - v.layout.blockBytes

theorem Sound.quiet (hs : Sound d v) : Sound d v.quiet := { hs with }

/-- A program whose scans go by steps ends if and only if they stay out of the last block. -/
theorem ends_iff {p : ℕ → Driver (Option α)} (h : ∀ fuel, ∃ bound new,
      Scanned d bound v.quiet (runDevice (p fuel v.quiet) d).1.2 new ∧
        Enough fuel new (runDevice (p fuel v.quiet) d).1.1) :
    Ends d v p ↔ BelowLast d v p := by
  have hsteps : ∀ fuel, (∀ m ∈ movesOf d v (p fuel), Step v.layout m) ∧
      Enough fuel (movesOf d v (p fuel)) (runDevice (p fuel v.quiet) d).1.1 := by
    intro fuel
    obtain ⟨bound, new, hscanned, henough⟩ := h fuel
    have hmoves : movesOf d v (p fuel) = new := hscanned.moves.trans (List.append_nil new)
    rw [hmoves]
    exact ⟨fun m hm => (hscanned.steps m hm).2, henough⟩
  constructor
  · intro hends fuel m hm
    by_contra hlast
    have hback := ((hsteps fuel).1 m hm).wraps (Nat.le_of_not_lt hlast)
    have hup := hends.forward fuel m hm
    omega
  · intro hbelow
    have hup : ∀ fuel, Up (movesOf d v (p fuel)) := fun fuel m hm =>
      ((hsteps fuel).1 m hm).up (hbelow fuel m hm)
    refine ⟨⟨2 ^ 64 + 1, Option.ne_none_iff_exists'.mp fun hnone => ?_⟩, hup⟩
    have := (hsteps (2 ^ 64 + 1)).2 (hup _) hnone
    omega

theorem belowLast_of_bound {p : ℕ → Driver (Option α)} (h : ∀ fuel, ∃ bound new,
      Scanned d bound v.quiet (runDevice (p fuel v.quiet) d).1.2 new ∧
        bound ≤ 2 ^ 64 - v.layout.blockBytes) : BelowLast d v p := by
  intro fuel m hm
  obtain ⟨bound, new, hscanned, hbound⟩ := h fuel
  rw [show movesOf d v (p fuel) = new from hscanned.moves.trans (List.append_nil new)] at hm
  exact Nat.lt_of_lt_of_le (hscanned.steps m hm).1 hbound

/-- **When calls return.** In any state of a session, on any medium:

* a call returns, with its scan going forward, if and only if the scan stays out of the last block;
* a search for the next entry of a directory returns, with the position increased, under the same
  condition, and a directory of at most `2 ^ 64` bytes less a block meets it;
* without large directories every call meets it. -/
theorem session_ends (h : Session d v log) :
    (∀ c, Ends d v (fun fuel => call fuel c) ↔ BelowLast d v fun fuel => call fuel c) ∧
      (∀ (directory : Inode) number position, directory.Loadable v.layout number →
        position < 2 ^ 64 →
        ((Ends d v (fun fuel => nextEntry directory fuel position) ∧
            ∀ fuel entry next, (runDevice (nextEntry directory fuel position v.quiet) d).1.1 =
              some (some (entry, next)) → position < next) ↔
          BelowLast d v fun fuel => nextEntry directory fuel position) ∧
        (directory.size ≤ 2 ^ 64 - v.layout.blockBytes →
          BelowLast d v fun fuel => nextEntry directory fuel position)) ∧
      (has v.layout.incompatible incompatLargedir = false →
        ∀ c, BelowLast d v fun fuel => call fuel c) := by
  have hs := h.held.sound.quiet
  have hcall := fun fuel c => (runDevice_of_always (call_scanned hs fuel c)).1
  -- every part reads off what was noted during the same scan
  refine ⟨fun c => ends_iff fun fuel => ?_, fun directory number position hdirectory hposition =>
    ?_, fun hlargedir c => belowLast_of_bound fun fuel => ?_⟩
  · obtain ⟨bound, new, hscanned, henough, -⟩ := hcall fuel c
    exact ⟨bound, new, hscanned, henough⟩
  · have hnext := fun fuel => (runDevice_of_always (nextEntry_scanned hs
      (hdirectory.number ▸ hdirectory.pos) fuel hposition)).1
    have hends : Ends d v (fun fuel => nextEntry directory fuel position) ↔
        BelowLast d v fun fuel => nextEntry directory fuel position := by
      refine ends_iff fun fuel => ?_
      obtain ⟨new, hscanned, -, hends⟩ := hnext fuel
      exact ⟨_, new, hscanned, fun hup hnone => by have := (hends hup).enough hnone; omega⟩
    refine ⟨⟨fun h => hends.mp h.1, fun hbelow => ⟨hends.mpr hbelow, ?_⟩⟩, fun hsize =>
      belowLast_of_bound fun fuel => ?_⟩
    · intro fuel entry next hout
      have hup := (hends.mpr hbelow).forward fuel
      obtain ⟨new, hscanned, -, hends⟩ := hnext fuel
      rw [movesOf, hscanned.moves, Volume.quiet, List.append_nil] at hup
      exact (hends hup).behind entry next hout
    · obtain ⟨new, hscanned, -, -⟩ := hnext fuel
      exact ⟨_, new, hscanned, hsize⟩
  · obtain ⟨bound, new, hscanned, -, hbound⟩ := hcall fuel c
    refine ⟨bound, new, hscanned, Nat.le_trans (hbound hlargedir) ?_⟩
    have := hs.layout.blockBytes_le
    change 2 ^ 32 ≤ 2 ^ 64 - v.quiet.layout.blockBytes
    omega

/-- In the sample, which has no large directories, every call ends. -/
theorem session_ends_sample :
    ∃ d v log, Session d v log ∧ ∀ c, Ends d v fun fuel => call fuel c := by
  obtain ⟨d, v, hsession, hsame, -, -⟩ := sampleDevice_session
  have hends := session_ends hsession
  have hlargedir : has (imageOf sampleDevice).layout.incompatible incompatLargedir = false := by
    decide +kernel
  rw [← imageOf_same hsame, ← (hsession.cached ((works_same hsame).mpr fun _ => rfl)).layout]
    at hlargedir
  exact ⟨d, v, _, hsession, fun c => (hends.1 c).mpr (hends.2.2 hlargedir c)⟩

/-! ## A directory that is scanned without end -/

/-- In a directory without any blocks, whose size is the greatest number of 64 bits, there is no
next entry and no end. -/
theorem nextLoop_endless (hl : g.layout.Ok) {directory : Inode}
    (hmapped : ∀ logical, g.mapped directory logical = some 0)
    (hsize : directory.size = 2 ^ 64 - 1) (fuel : ℕ) {position : ℕ} (hposition : position < 2 ^ 64)
    (haligned : g.layout.blockBytes ∣ position) : g.nextLoop directory fuel position = none := by
  have hblocks : g.layout.blockBytes ∣ 2 ^ 64 :=
    Nat.pow_dvd_pow 2 (Nat.le_trans hl.shift.2 (by decide))
  have hbytes := hl.le_blockBytes
  induction fuel generalizing position with
  | zero => rfl
  | succ fuel ih =>
    -- a multiple of the block size below 2 ^ 64 is below the size
    have hlt : position < directory.size := by
      have hgap := Nat.le_of_dvd (by omega) (Nat.dvd_sub hblocks haligned)
      omega
    rw [Image.nextLoop, if_pos hlt, scan_of_mapped (hmapped _), if_pos rfl]
    exact ih (Nat.mod_lt _ (Nat.two_pow_pos 64)) ((Nat.dvd_mod_iff hblocks).mpr
      (Nat.dvd_mul_left _ _))

theorem follow_zero (levels index : ℕ) : g.follow levels index 0 = some 0 := by
  induction levels generalizing index with
  | zero => rfl
  | succ levels ih =>
    rw [Image.follow, Image.pointer, if_pos rfl]
    exact ih _

theorem mapped_zero (hl : g.layout.Ok) {inode : Inode}
    (hextents : has inode.flags inodeFlagExtents = false)
    (hblock : ∀ k < 15, inode.block.nat (4 * k) 4 = 0) (logical : ℕ) :
    g.mapped inode logical = some 0 := by
  have hinside : inVolume g.layout (some 0) = some 0 := by
    rw [inVolume, Option.filter_some, if_pos (by simpa using hl.count.1)]
  rw [Image.mapped, if_neg (by simp [hextents] : ¬has inode.flags inodeFlagExtents = true)]
  split
  · rfl
  · rw [Image.indirect, show inode.block.nat 48 4 = 0 from hblock 12 (by decide),
      show inode.block.nat 52 4 = 0 from hblock 13 (by decide),
      show inode.block.nat 56 4 = 0 from hblock 14 (by decide), follow_zero, follow_zero,
      follow_zero]
    split
    · next hdirect =>
      rw [hblock logical (Nat.lt_trans hdirect (by decide)), hinside]
    · simp only [ite_self, hinside]

/-- A volume with large directories, whose root directory has no blocks and the greatest size. -/
def endlessDevice : Device where
  blockSize := 1024
  blockCount := 8
  content := .ofTable [(1024, 8), (1028, 5), (1044, 1), (1056, 8), (1064, 8), (1080, 0x53),
    (1081, 0xEF), (1100, 1), (1112, 128), (1121, 0x40), (2056, 4), (4224, 0xED), (4225, 0x41),
    (4228, 0xFF), (4229, 0xFF), (4230, 0xFF), (4231, 0xFF), (4250, 2), (4332, 0xFF), (4333, 0xFF),
    (4334, 0xFF), (4335, 0xFF)]
  faults := fun _ => none
  accesses := 0

/-- The root directory of the volume at the address zero. -/
def rootNode : Vfs.Node ℕ :=
  { id := rootInode, type := .directory, size := 2 ^ 64 - 1, name := [], filesystem := 0,
    path := [47] }

/-- A lookup in the root directory of that volume never returns: when the scan has passed the last
block its position is zero again. -/
theorem lookup_endless :
    ∃ d v log, Session d v log ∧ (∀ n, d.faults n = none) ∧
      (∀ fuel, (runDevice (call fuel (.lookup rootNode [97]) v) d).1.1 = none) ∧
      ¬Ends d v fun fuel => call fuel (.lookup rootNode [97]) := by
  have hmount : (runDevice (mount 0 1024 8 true true) endlessDevice).1.toOption.isSome = true := by
    set_option maxRecDepth 100000 in
    decide +kernel
  obtain ⟨d, v, hsession, hsame, hself, hlayout⟩ := session_of_mount (d := endlessDevice) hmount
  have hworks : ∀ n, d.faults n = none := (works_same hsame).mpr fun _ => rfl
  have hl : (imageOf endlessDevice).layout.Ok := by
    rw [← show v.layout = (imageOf endlessDevice).layout from hlayout]
    exact hsession.held.sound.layout
  have hfields : ((imageOf endlessDevice).inode rootInode).map (fun i =>
      (i.directory, i.size, has i.flags inodeFlagEncrypt, has i.flags inodeFlagExtents,
        (List.range 15).all fun k => i.block.nat (4 * k) 4 == 0)) =
        some (true, 2 ^ 64 - 1, false, false, true) := by
    set_option maxRecDepth 100000 in
    decide +kernel
  obtain ⟨root, hroot, hfields⟩ := Option.map_eq_some_iff.mp hfields
  simp only [Prod.mk.injEq, List.all_eq_true, List.mem_range, beq_iff_eq] at hfields
  obtain ⟨hdirectory, hsize, hencrypt, hextents, hblock⟩ := hfields
  have hdecode : (imageOf endlessDevice).decode 0 rootNode = some root :=
    decode_of_inode rfl hroot
  -- what the image says of the lookup
  have hfind : ∀ listing fuel,
      (imageOf endlessDevice).call 0 listing fuel (.lookup rootNode [97]) = none := by
    intro listing fuel
    rw [Image.call, Image.lookup, hdecode]
    dsimp only
    rw [if_neg (by simp [hdirectory]), if_neg (by decide)]
    cases fuel with
    | zero => rfl
    | succ fuel =>
      rw [Image.find, Image.next, if_neg (by simp [hencrypt]), nextLoop_endless hl
        (mapped_zero hl hextents hblock) hsize (fuel + 1) (Nat.two_pow_pos 64) (Nat.dvd_zero _)]
      rfl
  have hnone : ∀ w, Cached d (imageOf d) w → w.self = 0 → ∀ fuel,
      (runDevice (call fuel (.lookup rootNode [97]) w) d).1.1 = none := by
    intro w hc hself fuel
    rw [(runDevice_of_exact hworks (call_exact hc fuel _)).1.2.2 fun inode hinode hbad => ?_,
      hself, imageOf_same hsame]
    · exact hfind _ _
    · rw [imageOf_same hsame] at hinode
      obtain rfl : inode = root := Option.some.inj (hinode.symm.trans hroot)
      rw [hextents] at hbad
      cases hbad
  have hc := hsession.cached hworks
  refine ⟨d, v, _, hsession, hworks, hnone v hc hself, fun hends => ?_⟩
  obtain ⟨fuel, out, hout⟩ := hends.returns
  rw [hnone v.quiet (hc.move []) hself fuel] at hout
  cases hout

end ShirleysOS.Ext4
