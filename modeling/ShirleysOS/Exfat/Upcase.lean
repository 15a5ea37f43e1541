import ShirleysOS.Exfat.Streams

/-!
# The up-case table

The table is stored as a sequence of units, where `0xFFFF` and a number stand for so many units
that map to themselves. The driver reads it in chunks of 512 bytes, so that the two may be in
different chunks and in different clusters. Source: `Volume::load_upcase` of `kernel/fs/exfat.cpp`.
-/

namespace ShirleysOS.Exfat

open Lib Storage

/-! ## The stored table -/

/-- The units of a stored table. -/
def units (c : Bytes) (length : ℕ) : List ℕ :=
  (List.range (length / 2)).map fun i => le16 c (i * 2)

/-- The checksum of a stored table. -/
def checksumOf (c : Bytes) (length : ℕ) : UInt32 :=
  ((List.range length).map c).foldl checksum32 0

/-- A table with one more entry; there is none past the last unit. -/
def assign (table : UInt16 → UInt16) (position value : ℕ) : UInt16 → UInt16 := fun unit =>
  if unit.toNat = position then UInt16.ofNat value else table unit

/-- What units say about the entries from `position` on. -/
def decompress : ℕ → List ℕ → (UInt16 → UInt16) → UInt16 → UInt16
  | _, [], table => table
  | position, value :: rest, table =>
    if value = 0xFFFF then
      match rest with
      | [] => table
      | skipped :: rest => decompress (position + skipped) rest table
    else decompress (position + 1) rest (assign table position value)

theorem assign_past {table : UInt16 → UInt16} {position value : ℕ} (h : 65536 ≤ position) :
    assign table position value = table := by
  funext unit
  have := unit.toNat_lt
  exact if_neg (by omega)

/-- What the loop has at a position: the same, or both are past the last entry. -/
theorem foldl_add {position : ℕ} {values : List ℕ} {table : UInt16 → UInt16} {u : UpcaseLoad}
    (htable : u.table = table) (hrun : u.runFollows = false)
    (hposition : u.nextUnit = position ∨ 65536 ≤ u.nextUnit ∧ 65536 ≤ position) :
    (values.foldl UpcaseLoad.add u).table = decompress position values table := by
  fun_induction decompress position values table generalizing u with
  | case1 => exact htable
  | case2 position table =>
    rw [List.foldl_cons, List.foldl_nil, UpcaseLoad.add, hrun, if_neg Bool.false_ne_true,
      if_pos rfl]
    exact htable
  | case3 position table skipped rest ih =>
    rw [List.foldl_cons, List.foldl_cons]
    refine ih ?_ ?_ ?_
    all_goals rw [UpcaseLoad.add, UpcaseLoad.add, hrun, if_neg Bool.false_ne_true, if_pos rfl,
      if_pos rfl]
    · exact htable
    · dsimp only
      omega
  | case4 position value rest table hvalue ih =>
    rw [List.foldl_cons]
    have hadd : u.add value = if u.nextUnit < 65536 then
        { u with table := assign u.table u.nextUnit value, nextUnit := u.nextUnit + 1 }
        else u := by
      rw [UpcaseLoad.add, hrun, if_neg Bool.false_ne_true, if_neg hvalue]
      rfl
    by_cases hlt : u.nextUnit < 65536
    · obtain rfl : u.nextUnit = position := by omega
      rw [hadd, if_pos hlt]
      exact ih (by rw [htable]) hrun (.inl rfl)
    · -- past the last entry the loop stays where it is
      rw [hadd, if_neg hlt]
      exact ih (by rw [assign_past (by omega), htable]) hrun (by omega)

/-! ## Chunks -/

theorem units_append {c : Bytes} {m k : ℕ} (hm : m % 2 = 0) :
    units c (m + k) = units c m ++ units (c.slice m) k := by
  have hhalf : (m + k) / 2 = m / 2 + k / 2 := by omega
  rw [units, hhalf, List.range_add, List.map_append, List.map_map]
  refine congrArg _ (List.map_congr_left fun i _ => Bytes.nat_congr fun j _ => ?_)
  rw [Bytes.slice_apply]
  congr 1
  dsimp only
  omega

theorem units_congr {c c' : Bytes} {n : ℕ} (h : ∀ j < n, c j = c' j) : units c n = units c' n :=
  List.map_congr_left fun i hi => Bytes.nat_congr fun j hj => by
    rw [List.mem_range] at hi
    exact h _ (by omega)

theorem foldl_add_sum {values : List ℕ} {u : UpcaseLoad} {sum : UInt32} :
    values.foldl UpcaseLoad.add { u with sum } = { values.foldl UpcaseLoad.add u with sum } := by
  induction values generalizing u with
  | nil => rfl
  | cons value values ih =>
    have hadd : ({ u with sum } : UpcaseLoad).add value = { u.add value with sum } := by
      unfold UpcaseLoad.add
      split
      · rfl
      split
      · rfl
      split <;> rfl
    rw [List.foldl_cons, hadd, ih, List.foldl_cons]

namespace UpcaseLoad

variable {u : UpcaseLoad} {c c' : Bytes} {m k n : ℕ}

theorem addChunk_eq : u.addChunk c n =
    { (units c n).foldl add u with
      sum := ((List.range n).map c).foldl checksum32 u.sum } := by
  rw [addChunk, ← foldl_add_sum, units, List.foldl_map, List.foldl_map]

/-- **Where the chunks end does not matter**, so long as units are not cut. -/
theorem addChunk_append (hm : m % 2 = 0) :
    (u.addChunk c m).addChunk (c.slice m) k = u.addChunk c (m + k) := by
  rw [addChunk_eq, addChunk_eq, addChunk_eq, units_append hm, List.foldl_append, foldl_add_sum,
    List.range_add, List.map_append, List.map_map, List.foldl_append]
  rfl

theorem addChunk_congr (h : ∀ j < n, c j = c' j) : u.addChunk c n = u.addChunk c' n := by
  rw [addChunk_eq, addChunk_eq, units_congr h,
    List.map_congr_left fun i hi => h i (List.mem_range.mp hi)]

end UpcaseLoad

/-! ## Loading -/

variable (g : Volume)

/-- The loop of `load_upcase` as far as it reads. -/
def readChunks (table : Stream) : ℕ → ℕ → Bytes → Driver (Option Bytes)
  | 0, _, out => pure (some out)
  | fuel + 1, offset, out =>
    if offset < table.length then do
      let bytes := min (table.length - offset) 512
      let (result, chunk) ← readStream g table offset bytes
      if result.ok then readChunks table fuel (offset + 512) (out.splice offset bytes chunk)
      else pure none
    else pure (some out)

/-- The whole of a stream, read 512 bytes at a time. -/
def readWhole (table : Stream) : Driver (Option Bytes) :=
  readChunks g table table.length 0 fun _ => 0

variable {g} {table : Stream}

theorem loadUpcaseLoop_eq {start : UpcaseLoad} (fuel offset : ℕ) (out : Bytes)
    (hoffset : offset % 2 = 0) (hlength : table.length % 2 = 0)
    (hfuel : table.length ≤ offset + fuel) :
    loadUpcaseLoop g table fuel offset (start.addChunk out (min offset table.length)) = (do
      let read ← readChunks g table fuel offset out
      pure (read.map fun bytes => start.addChunk bytes table.length)) := by
  induction fuel generalizing offset out with
  | zero =>
    rw [Nat.min_eq_right (by omega), loadUpcaseLoop, readChunks, pure_bind]
    rfl
  | succ fuel ih =>
    rw [loadUpcaseLoop, readChunks]
    by_cases hlt : offset < table.length
    · rw [if_pos hlt, if_pos hlt, bind_assoc]
      refine bind_congr fun answer => ?_
      obtain ⟨result, chunk⟩ := answer
      dsimp only
      split
      · -- what has been read so far is decompressed as far as it goes
        have hstep : (start.addChunk out (min offset table.length)).addChunk chunk
            (min (table.length - offset) 512) =
              start.addChunk (out.splice offset (min (table.length - offset) 512) chunk)
                (min (offset + 512) table.length) := by
          rw [Nat.min_eq_left (Nat.le_of_lt hlt), show min (offset + 512) table.length =
            offset + min (table.length - offset) 512 by omega, ← UpcaseLoad.addChunk_append hoffset]
          have hbefore : start.addChunk out offset = start.addChunk
              (out.splice offset (min (table.length - offset) 512) chunk) offset :=
            UpcaseLoad.addChunk_congr fun j hj => (Bytes.splice_outside (.inl hj)).symm
          rw [hbefore]
          exact UpcaseLoad.addChunk_congr fun j hj => (Bytes.splice_add hj).symm
        rw [hstep]
        exact ih _ _ (by omega) (by omega)
      · rw [pure_bind]
        rfl
    · rw [if_neg hlt, if_neg hlt, Nat.min_eq_right (by omega), pure_bind]
      rfl

/-- A table that may be loaded: a whole number of units, on a cluster that there is. -/
structure Loadable (g : Volume) (table : Stream) : Prop where
  even : table.length % 2 = 0
  nonempty : 2 ≤ table.length
  bounded : table.length ≤ 262144
  first : firstDataCluster ≤ table.firstCluster ∧ table.firstCluster ≤ g.clusterCount + 1

/-- What is made of the bytes of a table. -/
def tableOf (length checksum : ℕ) (bytes : Bytes) : Option (UInt16 → UInt16) :=
  if (checksumOf bytes length).toNat = checksum then some (decompress 0 (units bytes length) id)
  else none

/-- **A table is loaded by reading it whole**, comparing its checksum and decompressing it. -/
theorem loadUpcase_eq (h : Loadable g table) (checksum : ℕ) :
    loadUpcase g table checksum = (do
      let read ← readWhole g table
      pure (read.bind (tableOf table.length checksum))) := by
  obtain ⟨heven, hnonempty, hbounded, hfirst⟩ := h
  have hloop := @loadUpcaseLoop_eq g table ⟨id, 0, false, 0⟩ table.length 0 (fun _ => 0) rfl heven
    (Nat.le_add_left _ _)
  rw [loadUpcase, if_neg (by omega)]
  rw [Nat.zero_min] at hloop
  refine (congrArg (· >>= _) hloop).trans ?_
  rw [bind_assoc]
  refine bind_congr fun read => ?_
  rw [pure_bind]
  cases read with
  | none => rfl
  | some bytes =>
    have htable : (List.foldl UpcaseLoad.add ⟨id, 0, false, 0⟩ (units bytes table.length)).table =
        decompress 0 (units bytes table.length) id := foldl_add rfl rfl (.inl rfl)
    dsimp only [Option.map_some, Option.bind_some]
    rw [tableOf, ← htable]
    simp only [UpcaseLoad.addChunk_eq]
    rfl

section Device

variable {d : Device} {fails : Prop} {A : Answers Error} {chain : ℕ → ℕ} {count : ℕ} {s : State}

theorem always_readChunks (h : Serves g d fails A) (hchain : Chain g d table chain count)
    (fuel offset : ℕ) (hs : RightCursor table chain count s)
    (hfuel : table.length ≤ offset + fuel) :
    always A anyRead
      (readChunks g table fuel offset
        ((chainBytes g d.content chain).trim (min offset table.length)))
      (fun out _ => out = some ((chainBytes g d.content chain).trim table.length) ∨
        fails ∧ out = none) s := by
  induction fuel generalizing offset s with
  | zero =>
    rw [Nat.min_eq_right (by omega)]
    exact .inl rfl
  | succ fuel ih =>
    rw [readChunks]
    by_cases hlt : offset < table.length
    · rw [if_pos hlt]
      refine always_bind.mpr ((always_readStream h hchain (by omega) (by omega) hs).mono ?_)
      rintro out s' ⟨hs', rfl | ⟨hf, hout⟩⟩
      · dsimp only
        rw [if_pos (by rfl), Nat.min_eq_left (Nat.le_of_lt hlt),
          Bytes.splice_congr fun j hj => Bytes.trim_apply hj, Bytes.trim_splice,
          show offset + min (table.length - offset) 512 = min (offset + 512) table.length by omega]
        exact ih _ hs' (by omega)
      · obtain ⟨result, chunk⟩ := out
        dsimp only at hout ⊢
        rw [hout, if_neg Bool.false_ne_true]
        exact .inr ⟨hf, rfl⟩
    · rw [if_neg hlt, Nat.min_eq_right (by omega)]
      exact .inl rfl

theorem always_readWhole (h : Serves g d fails A) (hchain : Chain g d table chain count)
    (hs : RightCursor table chain count s) :
    always A anyRead (readWhole g table)
      (fun out _ => out = some ((chainBytes g d.content chain).trim table.length) ∨
        fails ∧ out = none) s := by
  have hread := always_readChunks h hchain table.length 0 hs (Nat.le_add_left _ _)
  rwa [Nat.zero_min] at hread

/-- **The table that is loaded is the one that is stored**: wherever chunks and clusters end, what
`load_upcase` gives is what the units say, and it gives something exactly when the stream could be
read and has the recorded checksum. Over a device that does not fail it can be read. -/
theorem loadUpcase_decompresses (hsize : g.device.blockSize = d.blockSize)
    (hblock : 0 < d.blockSize) (hchain : Chain g d table chain count)
    (hs : RightCursor table chain count s) (heven : table.length % 2 = 0)
    (hnonempty : 2 ≤ table.length) (hbounded : table.length ≤ 262144) (checksum : ℕ) :
    let stored := chainBytes g d.content chain
    let loaded := (runDevice (loadUpcase g table checksum s) d).1.1
    let read := (runDevice (readWhole g table s) d).1.1
    (∀ upcase, loaded = some upcase → upcase = decompress 0 (units stored table.length) id) ∧
      (loaded.isSome ↔ (checksumOf stored table.length).toNat = checksum ∧ read.isSome) ∧
      ((∀ n, d.faults n = none) → read.isSome) := by
  intro stored loaded read
  have hcovers := hchain.covers
  have hcount : 0 < count := Nat.pos_of_ne_zero fun h => by
    rw [h, Nat.zero_mul] at hcovers
    omega
  have hloadable : Loadable g table := ⟨heven, hnonempty, hbounded, by
    have hfirst := hchain.valid 0 hcount
    rwa [hchain.first] at hfirst⟩
  have hread : read = some (stored.trim table.length) ∨ True ∧ read = none :=
    (runDevice_of_replies (always_readWhole (.replies hsize hblock) hchain hs)).1
  -- the stream could as well be read first and decompressed then
  have hloaded : loaded = read.bind (tableOf table.length checksum) := by
    have hrun := congrArg (fun p => (runDevice (p s) d).1.1) (loadUpcase_eq hloadable checksum)
    exact hrun.trans (congrArg (fun out => out.1.1) (runDevice_map
      fun out : Option Bytes × State => (out.1.bind (tableOf table.length checksum), out.2)))
  have hunits : units (stored.trim table.length) table.length = units stored table.length :=
    units_congr fun j hj => Bytes.trim_apply hj
  have hsum : checksumOf (stored.trim table.length) table.length =
      checksumOf stored table.length := by
    rw [checksumOf, List.map_congr_left fun i hi => Bytes.trim_apply (List.mem_range.mp hi)]
    rfl
  refine ⟨fun upcase hupcase => ?_, ?_, fun hworks => ?_⟩
  · rcases hread with hread | ⟨-, hread⟩
    · rw [hloaded, hread, Option.bind_some, tableOf, hunits] at hupcase
      split at hupcase
      · exact (Option.some.inj hupcase).symm
      · cases hupcase
    · rw [hloaded, hread] at hupcase
      cases hupcase
  · rcases hread with hread | ⟨-, hread⟩
    · rw [hloaded, hread, Option.bind_some, tableOf, hsum]
      split <;> simp [*]
    · simp [hloaded, hread]
  · have hexact : read = some (stored.trim table.length) ∨ False ∧ read = none :=
      (runDevice_of_exact hworks (always_readWhole (.exact hsize hblock) hchain hs)).1
    rcases hexact with h | h
    · rw [h]
      rfl
    · exact h.1.elim

end Device

/-- A volume with clusters of two bytes, the FAT at the beginning of its device and the clusters
from byte 32 on. -/
def scatteredVolume : Volume where
  self := 0
  device := ⟨64, 1, .outOfRange⟩
  fatOffset := 0
  heapOffset := 32
  clusterCount := 3
  clusterShift := 1
  bitmap := ⟨0, 0, 0, false⟩
  upcase := id
  volumeFlags := 0
  dirty := false
  writable := false

/-- A device with the units `0xFFFF`, 2 and `0x41` in the clusters 2, 4 and 3. -/
def scatteredDevice : Device where
  blockSize := 64
  blockCount := 1
  content := .ofTable [(8, 4), (16, 3), (32, 0xFF), (33, 0xFF), (34, 0x41), (36, 2)]
  faults _ := none
  accesses := 0

/-- The run marker and its number are in different clusters: after a skip of two entries, the
third maps to `0x41`. -/
theorem loadUpcase_decompresses_acrossClusters :
    ∃ upcase, (runDevice (loadUpcase scatteredVolume ⟨2, 6, 6, false⟩ 0xA8000038
        ⟨⟨0, 0, 0, false⟩, 0, .none⟩) scatteredDevice).1.1 = some upcase ∧
      upcase 1 = 1 ∧ upcase 2 = 0x41 := by
  have hchain : Chain scatteredVolume scatteredDevice ⟨2, 6, 6, false⟩
      (fun i => [2, 4, 3].getD i 0) 3 :=
    { first := rfl
      valid := by decide
      fits := by decide
      contiguous := fun h => by cases h
      linked := fun _ i hi => by
        have : i = 0 ∨ i = 1 := by omega
        rcases this with rfl | rfl <;> decide
      stored := by decide
      covers := by decide }
  obtain ⟨htable, hiff, hreads⟩ := loadUpcase_decompresses rfl (by decide) hchain
    (s := ⟨⟨0, 0, 0, false⟩, 0, .none⟩) (fun h => by cases h) (by decide) (by decide) (by decide)
    0xA8000038
  obtain ⟨upcase, hupcase⟩ := Option.isSome_iff_exists.mp
    (hiff.mpr ⟨by decide, hreads fun _ => rfl⟩)
  rw [htable upcase hupcase] at hupcase
  exact ⟨_, hupcase, by decide, by decide⟩

end ShirleysOS.Exfat
