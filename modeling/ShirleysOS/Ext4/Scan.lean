import ShirleysOS.Ext4.Sound

/-!
# Scanning directories, whatever is on the disk

A scan of a directory goes from record to record and over holes. Its position is a number of 64
bits. It increases with every step, except in the last block of the `2 ^ 64` bytes that a position
can name: that block is a hole, since logical blocks have 32 bits, and behind it the position is
zero again. A directory whose size says that it reaches into that block is scanned from its
beginning again, and again.
-/

namespace ShirleysOS.Ext4

open Lib Storage

variable {d : Device} {v v' v'' : Volume}

/-! ## One step -/

/-- **One step of a scan**: it goes forward, but from the last block back to the beginning. -/
structure Step (l : Layout) (m : ℕ × ℕ) : Prop where
  next : m.2 < 2 ^ 64
  up : m.1 < 2 ^ 64 - l.blockBytes → m.1 < m.2
  wraps : 2 ^ 64 - l.blockBytes ≤ m.1 → m.2 = 0

/-- Where the scan is after a step. -/
def ScanStep.next : ScanStep → Option ℕ
  | .stop => none
  | .skip next => some next
  | .entry _ next => some next

variable {l : Layout} {position : ℕ} {directory : Inode}

theorem step_of_lt (hl : l.Ok) {next : ℕ} (hlogical : position / l.blockBytes < logicalLimit)
    (hlt : position < next) (hnext : next ≤ (position / l.blockBytes + 1) * l.blockBytes) :
    Step l (position, next) := by
  have hbytes := hl.blockBytes_le
  have hend : (position / l.blockBytes + 1) * l.blockBytes ≤ logicalLimit * 65536 :=
    Nat.mul_le_mul hlogical hbytes
  have hlimit : logicalLimit * 65536 = 2 ^ 48 := rfl
  constructor <;> dsimp only <;> omega

theorem step_hole (hl : l.Ok) (hposition : position < 2 ^ 64) :
    Step l (position, (position / l.blockBytes + 1) * l.blockBytes % 2 ^ 64) := by
  have hpos := hl.blockBytes_pos
  obtain ⟨blocks, hblocks⟩ : ∃ blocks, blocks * l.blockBytes = 2 ^ 64 :=
    ⟨2 ^ (64 - l.blockShift), by
      rw [Layout.blockBytes, ← Nat.pow_add, Nat.sub_add_cancel (by have := hl.shift; omega)]⟩
  have hlogical : position / l.blockBytes < blocks := by
    rw [Nat.div_lt_iff_lt_mul hpos, hblocks]
    exact hposition
  have hwithin := Nat.lt_div_mul_add hpos (a := position)
  have hstart := Nat.div_mul_le_self position l.blockBytes
  rcases Nat.lt_or_ge (position / l.blockBytes + 1) blocks with hlt | hge
  · have hend := Nat.mul_le_mul_right l.blockBytes hlt
    rw [Nat.succ_mul, hblocks] at hend
    have hnext : (position / l.blockBytes + 1) * l.blockBytes < 2 ^ 64 := by omega
    rw [Nat.mod_eq_of_lt hnext]
    rw [Nat.succ_mul] at hend hnext ⊢
    constructor <;> dsimp only <;> omega
  · obtain rfl : blocks = position / l.blockBytes + 1 := by omega
    rw [hblocks, Nat.mod_self]
    rw [Nat.succ_mul] at hblocks
    constructor <;> dsimp only <;> omega

theorem decodeRecord_inside {block : Bytes} {within : ℕ} {r : Record}
    (h : decodeRecord l block within = some r) :
    8 ≤ r.record ∧ within + r.record ≤ l.blockBytes ∧ 8 + r.name.length ≤ r.record ∧
      r.name.length ≤ 255 := by
  unfold decodeRecord at h
  dsimp only at h
  split at h
  · cases h
  obtain rfl := Option.some.inj h
  simp only [bytesAt, List.length_map, List.length_range]
  omega

theorem scanRecord_sound (hs : Sound d v)
    (hlogical : position / v.layout.blockBytes < logicalLimit) :
    always d.answers (Near d v.layout) (scanRecord position)
      (fun out v' => Sound d v' ∧ Keeps v v' ∧
        ∀ next, out.next = some next → Step v.layout (position, next)) v := by
  rw [scanRecord, always_bind, always_get]
  dsimp only
  split
  · exact ⟨hs, Keeps.refl v, fun _ h => by cases h⟩
  next hwithin =>
  have hheader := hs.touchOne (a := ⟨.block, position % v.layout.blockBytes, 8⟩)
    (Nat.le_of_not_lt hwithin)
  rw [always_bind, touch, always_modify]
  cases hrecord : decodeRecord v.layout v.block (position % v.layout.blockBytes) with
  | none => exact ⟨hheader, Keeps.touched v _, fun _ h => by cases h⟩
  | some r =>
    obtain ⟨hlow, hhigh, hname, hshort⟩ := decodeRecord_inside hrecord
    have hname := hheader.touchOne
      (a := ⟨.block, position % v.layout.blockBytes + 8, r.name.length⟩)
      (show position % v.layout.blockBytes + 8 + r.name.length ≤ v.layout.blockBytes by omega)
    -- the record ends in the block, so the position does not overflow
    have hstep : Step v.layout (position, (position + r.record) % 2 ^ 64) := by
      have hpos := Nat.div_add_mod' position v.layout.blockBytes
      have hnext : position + r.record ≤ (position / v.layout.blockBytes + 1) *
          v.layout.blockBytes := by
        rw [Nat.succ_mul]
        omega
      have hstep := step_of_lt hs.layout hlogical (by omega) hnext
      rwa [Nat.mod_eq_of_lt hstep.next]
    dsimp only
    rw [always_bind, touch, always_modify]
    split
    · rw [always_bind, touch, always_modify]
      refine ⟨hname.touchOne (show 0 + (r.name.length + 1) ≤ 256 by omega),
        ⟨rfl, rfl, rfl, rfl, rfl⟩, ?_⟩
      rintro next ⟨⟩
      exact hstep
    · refine ⟨hname, ⟨rfl, rfl, rfl, rfl, rfl⟩, ?_⟩
      rintro next ⟨⟩
      exact hstep

/-- **One step of a scan**, whatever is on the disk. -/
theorem scanStep_sound (hs : Sound d v) (hnumber : directory.number ≠ 0)
    (hposition : position < 2 ^ 64) :
    always d.answers (Near d v.layout) (scanStep directory position)
      (fun out v' => Sound d v' ∧ Keeps v v' ∧
        ∀ next, out.next = some next → Step v.layout (position, next)) v := by
  rw [scanStep, always_bind, always_get]
  dsimp only
  split
  · rw [always_bind]
    refine (mapBlock_sound hs directory _).mono fun mapped v' h => ?_
    obtain ⟨hs', hfinds, hmapped, hbeyond⟩ := h
    have hkeeps := hfinds.toKeeps
    match mapped, hmapped, hbeyond with
    | none, _, _ => exact ⟨hs', hkeeps, fun _ h => nomatch h⟩
    | some (physical, run), hmapped, hbeyond =>
      dsimp only
      split
      · -- a hole: the scan goes on at the next block
        refine ⟨hs', hkeeps, ?_⟩
        rintro next ⟨⟩
        exact step_hole hs.layout hposition
      · next hne =>
        have hlogical : position / v.layout.blockBytes < logicalLimit := by
          by_contra hge
          cases hbeyond (Nat.le_of_not_lt hge)
          exact hne rfl
        obtain ⟨hrun, hphysical⟩ := hmapped physical run rfl
        rw [always_bind, ← hkeeps.layout]
        refine (fillBlock_sound hs' (by rw [hkeeps.layout]; omega)).mono fun ok v'' h => ?_
        obtain ⟨hs'', hkeeps', -, -, -⟩ := h
        have hkeeps'' := hkeeps.trans hkeeps'
        cases ok with
        | false => exact ⟨hs'', hkeeps'', fun _ h => nomatch h⟩
        | true =>
          rw [if_pos rfl, always_bind, always_modify, ← hkeeps'.layout]
          rw [← hkeeps''.layout] at hlogical
          have hloaded : Sound d { v'' with
              loaded := ⟨directory.number, position / v''.layout.blockBytes⟩ } :=
            { hs'' with loaded := .inr hlogical }
          refine (scanRecord_sound hloaded hlogical).mono fun out w h => ?_
          exact ⟨h.1, hkeeps''.trans ⟨h.2.1.self, h.2.1.deviceBlock, h.2.1.layout, h.2.1.listing,
            h.2.1.moves⟩, h.2.2⟩
  · next hhit =>
    refine scanRecord_sound hs ?_
    -- the buffer holds a block with a 32-bit number
    have hloaded := hs.loaded
    omega

/-! ## Scans -/

/-- **What a call does to a volume**: it stays sound, and the scans of the call go by the steps
`new`, the latest first, which all start below a bound. -/
structure Scanned (d : Device) (bound : ℕ) (v v' : Volume) (new : List (ℕ × ℕ)) : Prop where
  sound : Sound d v'
  self : v'.self = v.self
  layout : v'.layout = v.layout
  moves : v'.moves = new ++ v.moves
  steps : ∀ m ∈ new, m.1 < bound ∧ Step v.layout m

variable {bound : ℕ}

theorem Keeps.scanned (h : Keeps v v') (hs : Sound d v') : Scanned d bound v v' [] :=
  ⟨hs, h.self, h.layout, h.moves, fun _ h => nomatch h⟩

theorem Scanned.trans {new new' : List (ℕ × ℕ)} (h : Scanned d bound v v' new)
    (h' : Scanned d bound v' v'' new') : Scanned d bound v v'' (new' ++ new) := by
  refine ⟨h'.sound, h'.self.trans h.self, h'.layout.trans h.layout, ?_, fun m hm => ?_⟩
  · rw [h'.moves, h.moves, List.append_assoc]
  · rcases List.mem_append.mp hm with hm | hm
    · rw [← h.layout]
      exact h'.steps m hm
    · exact h.steps m hm

theorem Scanned.move (hs : Sound d v) {next : ℕ} (hbound : position < bound)
    (h : Step v.layout (position, next)) :
    Scanned d bound v { v with moves := (position, next) :: v.moves } [(position, next)] :=
  ⟨{ hs with }, rfl, rfl, rfl, fun _ hm => List.mem_singleton.mp hm ▸ ⟨hbound, h⟩⟩

/-- Every step goes forward. -/
def Up (moves : List (ℕ × ℕ)) : Prop := ∀ m ∈ moves, m.1 < m.2

theorem up_append {moves moves' : List (ℕ × ℕ)} : Up (moves ++ moves') ↔ Up moves ∧ Up moves' :=
  List.forall_mem_append

/-- The end of a search for the next entry: with every step forward the rounds are enough, and an
entry is behind the position. -/
structure NextEnds (fuel position : ℕ) (out : Option (Option (Entry × ℕ))) : Prop where
  enough : out = none → position + fuel ≤ 2 ^ 64
  behind : ∀ entry next, out = some (some (entry, next)) → position < next

/-- A search for the next entry at its end. -/
def NextScanned (d : Device) (bound fuel position : ℕ) (v : Volume)
    (out : Option (Option (Entry × ℕ))) (v' : Volume) : Prop :=
  ∃ new, Scanned d bound v v' new ∧
    (∀ entry next, out = some (some (entry, next)) → next < 2 ^ 64) ∧
    (Up new → NextEnds fuel position out)

theorem nextScanned_stop {fuel : ℕ} (h : Scanned d bound v v' []) :
    NextScanned d bound fuel position v (some none) v' :=
  ⟨[], h, fun _ _ h => (nomatch h), fun _ => ⟨fun h => (nomatch h), fun _ _ h => (nomatch h)⟩⟩

theorem nextEntryLoop_scanned (hs : Sound d v) (hnumber : directory.number ≠ 0) (fuel : ℕ)
    (hposition : position < 2 ^ 64) :
    always d.answers (Near d v.layout) (nextEntryLoop directory fuel position)
      (NextScanned d directory.size fuel position v) v := by
  induction fuel generalizing v position with
  | zero =>
    exact ⟨[], (Keeps.refl v).scanned hs, fun _ _ h => (nomatch h),
      fun _ => ⟨fun _ => Nat.le_of_lt hposition, fun _ _ h => nomatch h⟩⟩
  | succ fuel ih =>
    rw [nextEntryLoop]
    split
    · next hlt =>
      rw [always_bind]
      refine (scanStep_sound hs hnumber hposition).mono fun step v' h => ?_
      obtain ⟨hs', hkeeps, hstep⟩ := h
      have hbefore : Scanned d directory.size v v' [] := hkeeps.scanned hs'
      rw [← hkeeps.layout] at hstep
      cases step with
      | stop => exact nextScanned_stop hbefore
      | skip next =>
        have hstep := hstep next rfl
        have hmoved := hbefore.trans (Scanned.move hs' hlt hstep)
        dsimp only
        rw [always_bind, move, always_modify, ← hkeeps.layout]
        refine (ih hmoved.sound hstep.next).mono fun out v'' h => ?_
        obtain ⟨new, hscanned, hnext, hends⟩ := h
        refine ⟨_, hmoved.trans hscanned, hnext, fun hup => ?_⟩
        -- the moves only go up: this one, and those of the rest
        obtain ⟨hnew, hfirst⟩ := up_append.mp hup
        have hfirst : position < next := hfirst (position, next) (by simp)
        obtain ⟨henough, hbehind⟩ := hends hnew
        exact ⟨fun h => by have := henough h; omega,
          fun entry next' h => Nat.lt_trans hfirst (hbehind entry next' h)⟩
      | entry entry next =>
        have hstep := hstep next rfl
        dsimp only
        rw [always_bind, move, always_modify]
        refine ⟨_, hbefore.trans (Scanned.move hs' hlt hstep), ?_, fun hup => ⟨?_, ?_⟩⟩
        · rintro _ _ ⟨⟩
          exact hstep.next
        · exact fun h => nomatch h
        · rintro _ _ ⟨⟩
          exact hup (position, next) (by simp)
    · exact nextScanned_stop ((Keeps.refl v).scanned hs)

/-- **A search for the next entry.** -/
theorem nextEntry_scanned (hs : Sound d v) (hnumber : directory.number ≠ 0) (fuel : ℕ)
    (hposition : position < 2 ^ 64) :
    always d.answers (Near d v.layout) (nextEntry directory fuel position)
      (NextScanned d directory.size fuel position v) v := by
  rw [nextEntry]
  split
  · exact nextScanned_stop ((Keeps.refl v).scanned hs)
  · exact nextEntryLoop_scanned hs hnumber fuel hposition

theorem openEntry_keeps (hs : Sound d v) (entry : Entry) :
    always d.answers (Near d v.layout) (openEntry entry)
      (fun _ v' => Sound d v' ∧ Keeps v v') v := by
  rw [openEntry, always_bind]
  refine (loadInode_sound hs entry.inode).mono fun out v' h => ?_
  obtain ⟨hs', ⟨touched, rfl⟩, -⟩ := h
  exact ⟨hs', Keeps.touched v touched⟩

theorem decode_keeps (hs : Sound d v) (node : Vfs.Node ℕ) :
    always d.answers (Near d v.layout) (decode node)
      (fun out v' => Sound d v' ∧ Keeps v v' ∧
        ∀ inode, out = some inode → inode.Loadable v.layout node.id) v := by
  rw [decode, always_bind, always_get]
  split
  · exact ⟨hs, Keeps.refl v, fun _ h => nomatch h⟩
  · refine (loadInode_sound hs node.id).mono fun out v' h => ?_
    obtain ⟨hs', ⟨touched, rfl⟩, hloadable⟩ := h
    exact ⟨hs', Keeps.touched v touched, hloadable⟩

/-- A call whose scans go forward returns when it has enough rounds. -/
def Enough {α : Type} (fuel : ℕ) (new : List (ℕ × ℕ)) (out : Option α) : Prop :=
  Up new → out = none → fuel ≤ 2 ^ 64

theorem enough_some {α : Type} {fuel : ℕ} {new : List (ℕ × ℕ)} (a : α) :
    Enough fuel new (some a) := fun _ h => nomatch h

section Loops

variable {α : Type} {fuel rounds : ℕ} {out : Option α}

/-- A loop of searches at its end: with every step forward its rounds, or those of its searches, are
too few only when there are fewer than positions. -/
def LoopScanned (d : Device) (bound fuel rounds position : ℕ) (v : Volume) (out : Option α)
    (v' : Volume) : Prop :=
  ∃ new, Scanned d bound v v' new ∧
    (Up new → out = none → position + rounds ≤ 2 ^ 64 ∨ fuel ≤ 2 ^ 64)

theorem LoopScanned.after {new : List (ℕ × ℕ)} {rounds' position' : ℕ}
    (hscanned : Scanned d bound v v' new)
    (hnext : Up new → position + rounds ≤ position' + rounds')
    (h : LoopScanned d bound fuel rounds' position' v' out v'') :
    LoopScanned d bound fuel rounds position v out v'' := by
  obtain ⟨new', hscanned', henough⟩ := h
  refine ⟨_, hscanned.trans hscanned', fun hup hnone => ?_⟩
  obtain ⟨hnew', hnew⟩ := up_append.mp hup
  exact (henough hnew' hnone).imp_left (Nat.le_trans (hnext hnew))

/-- **One round of a loop over the entries**: a search, and what the loop does with an entry. -/
theorem round_scanned (hs : Sound d v) (hnumber : directory.number ≠ 0)
    (hposition : position < 2 ^ 64) {p : Option (Option (Entry × ℕ)) → Driver (Option α)} {a : α}
    (hnone : p none = pure none) (hlast : p (some none) = pure (some a))
    (hentry : ∀ entry next v', Sound d v' → next < 2 ^ 64 →
      always d.answers (Near d v'.layout) (p (some (some (entry, next))))
        (LoopScanned d directory.size fuel rounds next v') v') :
    always d.answers (Near d v.layout) (nextEntry directory fuel position >>= p)
      (LoopScanned d directory.size fuel (rounds + 1) position v) v := by
  rw [always_bind]
  refine (nextEntry_scanned hs hnumber fuel hposition).mono fun out v' h => ?_
  obtain ⟨new, hscanned, hnext, hends⟩ := h
  match out, hnext, hends with
  | none, _, hends =>
    rw [hnone]
    exact ⟨new, hscanned, fun hup _ => .inr (by have := (hends hup).enough rfl; omega)⟩
  | some none, _, _ =>
    rw [hlast]
    exact ⟨new, hscanned, fun _ h => nomatch h⟩
  | some (some (entry, next)), hnext, hends =>
    rw [← hscanned.layout]
    refine (hentry entry next v' hscanned.sound (hnext entry next rfl)).mono fun out v'' h => ?_
    refine h.after hscanned fun hup => ?_
    have := (hends hup).behind entry next rfl
    omega

theorem lookupLoop_scanned (hs : Sound d v) (hnumber : directory.number ≠ 0) (name : List UInt8)
    (hposition : position < 2 ^ 64) :
    always d.answers (Near d v.layout) (lookupLoop directory name fuel rounds position)
      (LoopScanned d directory.size fuel rounds position v) v := by
  induction rounds generalizing v position with
  | zero => exact ⟨[], (Keeps.refl v).scanned hs, fun _ _ => .inl (Nat.le_of_lt hposition)⟩
  | succ rounds ih =>
    rw [lookupLoop]
    refine round_scanned hs hnumber hposition rfl rfl fun entry next v' hs' hnext => ?_
    dsimp only
    split
    · exact ih hs' hnext
    · rw [always_bind]
      refine (openEntry_keeps hs' entry).mono fun out v'' h => ?_
      exact ⟨[], h.2.scanned h.1, fun _ h => nomatch h⟩

theorem listLoop_scanned (hs : Sound d v) (hnumber : directory.number ≠ 0) (target index : ℕ)
    (hposition : position < 2 ^ 64) :
    always d.answers (Near d v.layout) (listLoop directory target fuel rounds index position)
      (LoopScanned d directory.size fuel rounds position v) v := by
  induction rounds generalizing v index position with
  | zero => exact ⟨[], (Keeps.refl v).scanned hs, fun _ _ => .inl (Nat.le_of_lt hposition)⟩
  | succ rounds ih =>
    rw [listLoop]
    refine round_scanned hs hnumber hposition rfl rfl fun entry next v' hs' hnext => ?_
    dsimp only
    rw [always_bind]
    refine (openEntry_keeps hs' entry).mono fun node v'' h => ?_
    obtain ⟨hs'', hkeeps⟩ := h
    have hagain : ∀ index', always d.answers (Near d v'.layout)
        (listLoop directory target fuel rounds index' next)
        (LoopScanned d directory.size fuel rounds next v') v'' := by
      intro index'
      rw [← hkeeps.layout]
      exact (ih hs'' index' hnext).mono fun out w h =>
        h.after (hkeeps.scanned hs'') fun _ => Nat.le_refl _
    cases node with
    | none => exact hagain index
    | some node =>
      dsimp only
      split
      · rw [always_bind, always_modify]
        have hsound : Sound d { v'' with listing := ⟨directory.number, index + 1, next⟩ } :=
          { hs'' with listing := hnext }
        exact ⟨[], ⟨hsound, hkeeps.self, hkeeps.layout, hkeeps.moves, fun _ h => nomatch h⟩,
          fun _ h => nomatch h⟩
      · exact hagain (index + 1)

/-- **A call at its end**: its scans are as far as a directory goes, and with every step forward it
returns when it has enough rounds. -/
def CallScanned (d : Device) (fuel : ℕ) (v : Volume) (out : Option α) (v' : Volume) : Prop :=
  ∃ bound new, Scanned d bound v v' new ∧ Enough fuel new out ∧
    (has v.layout.incompatible incompatLargedir = false → bound ≤ 2 ^ 32)

theorem Keeps.call (h : Keeps v v') (hs : Sound d v') (a : α) :
    CallScanned d fuel v (some a) v' :=
  ⟨0, [], h.scanned hs, enough_some a, fun _ => Nat.zero_le _⟩

theorem LoopScanned.call {number : ℕ} (hkeeps : Keeps v v') (hs : Sound d v')
    (hdirectory : directory.directory = true) (hloadable : directory.Loadable v.layout number)
    (h : LoopScanned d directory.size fuel fuel position v' out v'') :
    CallScanned d fuel v out v'' := by
  obtain ⟨new, hscanned, henough⟩ := h
  refine ⟨_, _, (hkeeps.scanned hs).trans hscanned, fun hup hnone => ?_,
    fun hlargedir => Nat.le_of_lt (hloadable.short hdirectory hlargedir)⟩
  have := henough (up_append.mp hup).1 hnone
  omega

/-- **`lookup`, whatever is on the disk.** -/
theorem lookup_scanned (hs : Sound d v) (directory : Vfs.Node ℕ) (name : List UInt8) :
    always d.answers (Near d v.layout) (lookup fuel directory name) (CallScanned d fuel v) v := by
  rw [lookup, always_bind]
  refine (decode_keeps hs directory).mono fun out v' h => ?_
  obtain ⟨hs', hkeeps, hloadable⟩ := h
  cases out with
  | none => exact hkeeps.call hs' _
  | some parent =>
    have hparent := hloadable parent rfl
    dsimp only
    split
    · exact hkeeps.call hs' _
    next hdirectory =>
    split
    · exact hkeeps.call hs' _
    rw [← hkeeps.layout]
    exact (lookupLoop_scanned hs' (hparent.number ▸ hparent.pos) name
      (Nat.two_pow_pos 64)).mono fun out v'' h =>
        h.call hkeeps hs' (by simpa using hdirectory) hparent

/-- **`list`, whatever is on the disk.** -/
theorem list_scanned (hs : Sound d v) (directory : Vfs.Node ℕ) (target : ℕ) :
    always d.answers (Near d v.layout) (list fuel directory target) (CallScanned d fuel v) v := by
  rw [list, always_bind]
  refine (decode_keeps hs directory).mono fun out v' h => ?_
  obtain ⟨hs', hkeeps, hloadable⟩ := h
  cases out with
  | none => exact hkeeps.call hs' _
  | some parent =>
    have hparent := hloadable parent rfl
    dsimp only
    rw [always_bind, always_get]
    split
    · exact hkeeps.call hs' _
    next hdirectory =>
    have hloop : ∀ index position, position < 2 ^ 64 → always d.answers (Near d v.layout)
        (listLoop parent target fuel fuel index position) (CallScanned d fuel v) v' := by
      intro index position hposition
      rw [← hkeeps.layout]
      exact (listLoop_scanned hs' (hparent.number ▸ hparent.pos) target index
        hposition).mono fun out v'' h => h.call hkeeps hs' (by simpa using hdirectory) hparent
    split
    · exact hloop _ _ hs'.listing
    · exact hloop 0 0 (Nat.two_pow_pos 64)

end Loops

/-- **`read`, whatever is on the disk.** -/
theorem read_keeps (hs : Sound d v) (file : Vfs.Node ℕ) (offset length : ℕ) (buffer : Bool) :
    always d.answers (Near d v.layout) (read file offset length buffer)
      (fun _ v' => Sound d v' ∧ Keeps v v') v := by
  rw [read, always_bind]
  refine (decode_keeps hs file).mono fun out v' h => ?_
  obtain ⟨hs', hkeeps, hloadable⟩ := h
  cases out with
  | none => exact ⟨hs', hkeeps⟩
  | some inode =>
    dsimp only
    split_ifs
    · exact ⟨hs', hkeeps⟩
    · exact ⟨hs', hkeeps⟩
    · exact ⟨hs', hkeeps⟩
    · exact ⟨hs', hkeeps⟩
    · rw [← hkeeps.layout] at hloadable ⊢
      refine (readInode_sound hs' (hloadable inode rfl) offset length).mono fun _ v'' h => ?_
      exact ⟨h.1, hkeeps.trans h.2⟩

theorem CallScanned.map {α β : Type} {f : α → β} {fuel : ℕ} {out : Option α}
    (h : CallScanned d fuel v out v') : CallScanned d fuel v (out.map f) v' := by
  obtain ⟨bound, new, hscanned, henough, hbound⟩ := h
  exact ⟨bound, new, hscanned, fun hup hnone => henough hup (Option.map_eq_none_iff.mp hnone),
    hbound⟩

/-- **Any call, whatever is on the disk.** -/
theorem call_scanned (hs : Sound d v) (fuel : ℕ) (c : Call) :
    always d.answers (Near d v.layout) (call fuel c) (CallScanned d fuel v) v := by
  cases c with
  | lookup directory name =>
    rw [call, always_bind]
    exact (lookup_scanned hs directory name).mono fun out v' h => h.map
  | list directory position =>
    rw [call, always_bind]
    exact (list_scanned hs directory position).mono fun out v' h => h.map
  | read file offset length buffer =>
    rw [call, always_bind]
    exact (read_keeps hs file offset length buffer).mono fun out v' h => h.2.call h.1 _

end ShirleysOS.Ext4
