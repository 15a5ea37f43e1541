import ShirleysOS.Ext4.Mapping
import ShirleysOS.Ext4.Scan

/-!
# What the driver remembers does not matter

Three things are remembered from one call to the next: an extent, the directory block in the shared
buffer, and a place in a directory. Each is what the image says, or is not used: the buffer is said
to hold nothing before anything else is read into it, and the place is one that a listing from the
beginning passes. So a call gives what the image says, whatever is remembered.
-/

namespace ShirleysOS.Ext4

open Lib Storage

variable {d : Device} {g : Image} {v v' : Volume} {directory : Inode}

/-! ## Places in a directory -/

section Places

variable {fuel fuel' rounds rounds' index target position : ℕ}

theorem nextLoop_mono {found : Option (Entry × ℕ)}
    (h : g.nextLoop directory fuel position = some found) (hfuel : fuel ≤ fuel') :
    g.nextLoop directory fuel' position = some found := by
  induction fuel generalizing position fuel' with
  | zero => cases h
  | succ fuel ih =>
    obtain ⟨fuel', rfl⟩ : ∃ n, fuel' = n + 1 := ⟨fuel' - 1, by omega⟩
    rw [Image.nextLoop] at h ⊢
    split at h
    · next hlt =>
      rw [if_pos hlt]
      cases hscan : g.scan directory position with
      | stop =>
        rw [hscan] at h
        exact h
      | skip next =>
        rw [hscan] at h
        exact ih h (Nat.le_of_succ_le_succ hfuel)
      | entry entry next =>
        rw [hscan] at h
        exact h
    · next hge =>
      rw [if_neg hge]
      exact h

theorem next_mono {found : Option (Entry × ℕ)} (h : g.next directory fuel position = some found)
    (hfuel : fuel ≤ fuel') : g.next directory fuel' position = some found := by
  unfold Image.next at h ⊢
  split at h
  · next hencrypt =>
    rw [if_pos hencrypt]
    exact h
  · next hencrypt =>
    rw [if_neg hencrypt]
    exact nextLoop_mono h hfuel

theorem nth_mono {out : Option Vfs.Entry}
    (h : g.nth directory target fuel rounds index position = some out) (hfuel : fuel ≤ fuel')
    (hrounds : rounds ≤ rounds') : g.nth directory target fuel' rounds' index position =
      some out := by
  induction rounds generalizing index position rounds' with
  | zero => cases h
  | succ rounds ih =>
    obtain ⟨rounds', rfl⟩ : ∃ n, rounds' = n + 1 := ⟨rounds' - 1, by omega⟩
    have hrounds := Nat.le_of_succ_le_succ hrounds
    rw [Image.nth] at h ⊢
    cases hnext : g.next directory fuel position with
    | none =>
      rw [hnext] at h
      cases h
    | some found =>
      rw [hnext] at h
      rw [next_mono hnext hfuel]
      -- the same entry is next, and the rest follows by induction
      match found, h with
      | none, h => exact h
      | some (entry, next), h =>
        dsimp only at h ⊢
        cases hnode : g.node entry with
        | none =>
          rw [hnode] at h
          exact ih h hrounds
        | some node =>
          rw [hnode] at h
          dsimp only at h ⊢
          split at h
          · next heq =>
            rw [if_pos heq]
            exact h
          · next hne =>
            rw [if_neg hne]
            exact ih h hrounds

/-- **The places that a listing passes**: from the beginning, from entry to entry. The entries that
can be opened are counted. -/
inductive Image.Passed (g : Image) (directory : Inode) : ℕ → ℕ → Prop
  | start : g.Passed directory 0 0
  | next {index position fuel next : ℕ} {entry : Entry}
    (hbefore : g.Passed directory index position)
      (h : g.next directory fuel position = some (some (entry, next))) :
      g.Passed directory (if (g.node entry).isSome then index + 1 else index) next

theorem nth_next {next : ℕ} {entry : Entry}
    (hnext : g.next directory fuel position = some (some (entry, next)))
    (hindex : (if (g.node entry).isSome then index + 1 else index) ≤ target) (rounds : ℕ) :
    g.nth directory target fuel (rounds + 1) index position =
      g.nth directory target fuel rounds (if (g.node entry).isSome then index + 1 else index)
        next := by
  rw [Image.nth, hnext]
  dsimp only
  cases hnode : g.node entry with
  | none => rfl
  | some node =>
    rw [hnode] at hindex
    have hne : index ≠ target := by
      simp only [Option.isSome_some, if_true] at hindex
      omega
    simp [hne]

/-- **A listing may start from any place that it passes.** -/
theorem nth_passed (h : g.Passed directory index position) (hindex : index ≤ target)
    {out : Option Vfs.Entry} :
    (∃ fuel rounds, g.nth directory target fuel rounds index position = some out) ↔
      ∃ fuel rounds, g.nth directory target fuel rounds 0 0 = some out := by
  induction h with
  | start => exact Iff.rfl
  | @next index position fuel next entry hbefore hnext ih =>
    have hle : index ≤ target := by
      split at hindex <;> omega
    rw [← ih hle]
    constructor
    · rintro ⟨fuel', rounds, h⟩
      refine ⟨max fuel fuel', rounds + 1, ?_⟩
      rw [nth_next (next_mono hnext (Nat.le_max_left fuel fuel')) hindex]
      exact nth_mono h (Nat.le_max_right fuel fuel') (Nat.le_refl rounds)
    · rintro ⟨fuel', rounds, h⟩
      refine ⟨max fuel fuel', rounds, ?_⟩
      have h := nth_mono h (Nat.le_max_right fuel fuel') (Nat.le_succ rounds)
      rwa [nth_next (next_mono hnext (Nat.le_max_left fuel fuel')) hindex] at h

end Places

/-! ## What is remembered -/

/-- **What is remembered is what the image says**, when it is of an inode whose map is right. -/
structure Cached (d : Device) (g : Image) (v : Volume) : Prop extends Reflects d g v where
  loaded : ∀ inode, g.inode v.loaded.inode = some inode → g.Good inode →
    ∃ b, b ≠ 0 ∧ g.mapped inode v.loaded.logical = some b ∧ v.block = g.block b
  listing : ∀ inode, g.inode v.listing.inode = some inode → g.Good inode →
    g.Passed inode v.listing.index v.listing.position

theorem inode_zero (g : Image) : g.inode 0 = none := by
  unfold Image.inode
  exact if_pos (.inl rfl)

/-- The buffer is as it was or is said to hold nothing, and the place in a directory stays. -/
theorem Cached.of_finds {number : ℕ} (h : Cached d g v) (hr : Reflects d g v')
    (hfinds : Finds number v v') : Cached d g v' := by
  refine ⟨hr, ?_, by rw [hfinds.listing]; exact h.listing⟩
  rcases hfinds.buffer with hcleared | ⟨hloaded, hblock⟩
  · rw [hcleared]
    intro inode hinode
    rw [inode_zero] at hinode
    cases hinode
  · rw [hloaded, hblock]
    exact h.loaded

theorem Cached.touched (h : Cached d g v) {touched : List Access}
    (hs : Sound d { v with touched }) : Cached d g { v with touched } :=
  h.of_finds ⟨hs, h.content, h.layout, h.remembers⟩ (Finds.touched 0 v touched)

/-! ## Scans -/

theorem scanRecord_exact (position : ℕ) :
    always d.exact anyRead (scanRecord position)
      (fun out v' => out = recordStep v.layout v.block position ∧ v'.loaded = v.loaded ∧
        v'.block = v.block ∧ v'.extent = v.extent) v := by
  rw [scanRecord, always_bind, always_get, recordStep]
  dsimp only
  split
  · exact ⟨rfl, rfl, rfl, rfl⟩
  rw [always_bind, touch, always_modify]
  cases decodeRecord v.layout v.block (position % v.layout.blockBytes) with
  | none => exact ⟨rfl, rfl, rfl, rfl⟩
  | some r =>
    dsimp only
    rw [always_bind, touch, always_modify]
    split
    · rw [always_bind, touch, always_modify]
      exact ⟨rfl, rfl, rfl, rfl⟩
    · exact ⟨rfl, rfl, rfl, rfl⟩

theorem scan_of_mapped {position b : ℕ}
    (h : g.mapped directory (position / g.layout.blockBytes) = some b) :
    g.scan directory position =
      if b = 0 then .skip ((position / g.layout.blockBytes + 1) * g.layout.blockBytes % 2 ^ 64)
      else recordStep g.layout (g.block b) position := by
  unfold Image.scan
  dsimp only
  rw [h]
  cases b with
  | zero => rfl
  | succ b => rfl

/-- **One step of a scan** is what the image says. -/
theorem scanStep_exact (hc : Cached d g v) (hinode : g.inode directory.number = some directory)
    {position : ℕ} (hposition : position < 2 ^ 64) :
    always d.exact anyRead (scanStep directory position)
      (fun out v' => Cached d g v' ∧ Keeps v v' ∧
        (∀ next, out.next = some next → next < 2 ^ 64) ∧
        (g.Good directory → out = g.scan directory position)) v := by
  have hnumber : directory.number ≠ 0 := (inode_loadable hinode).pos
  have hsound := always_exact (scanStep_sound hc.sound hnumber hposition)
  -- the buffer is filled with the block that is scanned
  have hvalue : always d.exact anyRead (scanStep directory position)
      (fun out v' => (Keeps v v' → Sound d v' → Cached d g v') ∧
        (g.Good directory → out = g.scan directory position)) v := by
    rw [scanStep, always_bind, always_get]
    dsimp only
    rw [hc.layout]
    split
    · rw [always_bind]
      refine (mapBlock_reflects hc.toReflects hinode _).mono fun mapped v' h => ?_
      obtain ⟨hr, hfinds, hmapped, hanswers⟩ := h
      have hc' := hc.of_finds hr hfinds
      rcases mapped with _ | ⟨physical, run⟩
      · refine ⟨fun _ _ => hc', fun hgood => ?_⟩
        rw [Image.scan, show g.mapped directory _ = none from hanswers hgood]
      · have hfirst : g.Good directory → g.mapped directory (position / g.layout.blockBytes) =
            some physical := by
          intro hgood
          obtain ⟨hrun, hstretch⟩ := hanswers hgood
          have := hstretch 0 hrun
          rwa [Nat.add_zero, ahead_zero] at this
        dsimp only
        split
        · next hhole =>
          refine ⟨fun _ _ => hc', fun hgood => ?_⟩
          rw [scan_of_mapped (hfirst hgood), if_pos hhole]
        · next hne =>
          have hinside : physical < v'.layout.blocksCount := by
            obtain ⟨hrun, hphysical⟩ := hmapped physical run rfl
            have := hphysical.resolve_left hne
            rw [hfinds.layout]
            omega
          rw [always_bind]
          refine ((fillBlock_exact hr.mounted hinside).and
            (always_exact (fillBlock_sound hr.sound hinside))).mono fun ok v'' h => ?_
          obtain ⟨⟨rfl, hblock, hkeeps⟩, -, -, hextent, -, -⟩ := h
          rw [if_pos rfl, always_bind, always_modify]
          refine (scanRecord_exact position).mono fun out w h => ?_
          obtain ⟨hout, hloaded, hblock', hextent'⟩ := h
          refine ⟨fun hkeeps' hs => ⟨⟨hs, hc.content, hkeeps'.layout.trans hc.layout, ?_⟩, ?_, ?_⟩,
            fun hgood => ?_⟩
          · unfold Remembers
            rw [hextent', show _ = v'.extent from hextent]
            exact hr.remembers
          · rw [hloaded, hblock']
            intro inode hinode' hgood
            obtain rfl : inode = directory := Option.some.inj (hinode'.symm.trans hinode)
            exact ⟨physical, hne, hfirst hgood, hblock⟩
          · rw [hkeeps'.listing]
            exact hc.listing
          · rw [hout, scan_of_mapped (hfirst hgood), if_neg hne, ← hblock, ← hr.layout,
              ← hkeeps.layout]
    · next hhit =>
      refine (scanRecord_exact position).mono fun out v' h => ?_
      obtain ⟨hout, hloaded, hblock, hextent⟩ := h
      refine ⟨fun hkeeps hs => hc.of_finds ⟨hs, hc.content, hkeeps.layout.trans hc.layout, ?_⟩
        (show Finds directory.number v v' from ⟨hkeeps, .inr ⟨hloaded, hblock⟩, .inl hextent⟩),
        fun hgood => ?_⟩
      · unfold Remembers
        rw [hextent]
        exact hc.remembers
      · -- the buffer holds the block
        obtain ⟨hnumber', hlogical⟩ : v.loaded.inode = directory.number ∧
            v.loaded.logical = position / g.layout.blockBytes := by
          constructor <;> by_contra h <;> exact hhit (by simp [h])
        obtain ⟨b, hb, hmapped, hbuffer⟩ := hc.loaded directory (by rw [hnumber']; exact hinode)
          hgood
        rw [hlogical] at hmapped
        rw [hout, scan_of_mapped hmapped, if_neg hb, hbuffer, hc.layout]
  refine (hsound.and hvalue).mono fun out v' h => ?_
  obtain ⟨⟨hs, hkeeps, hstep⟩, hcached, hout⟩ := h
  exact ⟨hcached hkeeps hs, hkeeps, fun next hnext => (hstep next hnext).next, hout⟩

theorem Cached.move (h : Cached d g v) (moves : List (ℕ × ℕ)) : Cached d g { v with moves } :=
  ⟨⟨{ h.sound with }, h.content, h.layout, h.remembers⟩, h.loaded, h.listing⟩

/-- What a search for an entry leaves as it is. -/
structure Stays (d : Device) (g : Image) (v v' : Volume) : Prop where
  cached : Cached d g v'
  self : v'.self = v.self
  listing : v'.listing = v.listing

theorem Stays.trans {v'' : Volume} (h : Stays d g v v') (h' : Stays d g v' v'') :
    Stays d g v v'' :=
  ⟨h'.cached, h'.self.trans h.self, h'.listing.trans h.listing⟩

theorem decode_inode {self : ℕ} {node : Vfs.Node ℕ} {inode : Inode}
    (h : g.decode self node = some inode) :
    g.inode node.id = some inode ∧ g.inode inode.number = some inode := by
  unfold Image.decode at h
  split at h
  · cases h
  · rw [(inode_loadable h).number]
    exact ⟨h, h⟩

/-- The map of the inode of a node is right, if there is such an inode. -/
def Image.GoodNode (g : Image) (node : Vfs.Node ℕ) : Prop :=
  ∀ inode, g.inode node.id = some inode → g.Good inode

variable (hc : Cached d g v)
include hc

theorem nextEntryLoop_exact (hinode : g.inode directory.number = some directory) (fuel : ℕ)
    {position : ℕ} (hposition : position < 2 ^ 64) :
    always d.exact anyRead (nextEntryLoop directory fuel position)
      (fun out v' => Stays d g v v' ∧
        (∀ entry next, out = some (some (entry, next)) → next < 2 ^ 64) ∧
        (g.Good directory → out = g.nextLoop directory fuel position)) v := by
  induction fuel generalizing v position with
  | zero => exact ⟨⟨hc, rfl, rfl⟩, fun _ _ h => (by cases h), fun _ => rfl⟩
  | succ fuel ih =>
    rw [nextEntryLoop, Image.nextLoop]
    split
    · rw [always_bind]
      refine (scanStep_exact hc hinode hposition).mono fun step v' h => ?_
      obtain ⟨hc', hkeeps, hnext, hstep⟩ := h
      cases step with
      | stop =>
        refine ⟨⟨hc', hkeeps.self, hkeeps.listing⟩, fun _ _ h => (by cases h), fun hgood => ?_⟩
        rw [← hstep hgood]
      | skip next =>
        dsimp only
        rw [always_bind, move, always_modify]
        -- the loop goes on at `next`, in what the step has left
        refine (ih (hc'.move _) (hnext next rfl)).mono fun out v'' h => ?_
        obtain ⟨hstays, hbound, hout⟩ := h
        refine ⟨⟨hstays.cached, hstays.self.trans hkeeps.self,
          hstays.listing.trans hkeeps.listing⟩, hbound, fun hgood => ?_⟩
        rw [← hstep hgood]
        exact hout hgood
      | entry entry next =>
        dsimp only
        rw [always_bind, move, always_modify]
        refine ⟨⟨hc'.move _, hkeeps.self, hkeeps.listing⟩, ?_, fun hgood => ?_⟩
        · rintro _ _ ⟨⟩
          exact hnext next rfl
        · rw [← hstep hgood]
    · exact ⟨⟨hc, rfl, rfl⟩, fun _ _ h => (by cases h), fun _ => rfl⟩

/-- **The next entry** is what the image says. -/
theorem nextEntry_exact (hinode : g.inode directory.number = some directory)
    (fuel : ℕ) {position : ℕ} (hposition : position < 2 ^ 64) :
    always d.exact anyRead (nextEntry directory fuel position)
      (fun out v' => Stays d g v v' ∧
        (∀ entry next, out = some (some (entry, next)) → next < 2 ^ 64) ∧
        (g.Good directory → out = g.next directory fuel position)) v := by
  rw [nextEntry, Image.next]
  split
  · exact ⟨⟨hc, rfl, rfl⟩, fun _ _ h => (by cases h), fun _ => rfl⟩
  · exact nextEntryLoop_exact hc hinode fuel hposition

theorem loadInode_stays (number : ℕ) :
    always d.exact anyRead (loadInode number)
      (fun out v' => Stays d g v v' ∧ out = g.inode number) v := by
  refine ((loadInode_exact hc.mounted number).and
    (always_exact (loadInode_sound hc.sound number))).mono fun out v' h => ?_
  obtain ⟨hout, hs, ⟨touched, rfl⟩, -⟩ := h
  exact ⟨⟨hc.touched hs, rfl, rfl⟩, hout⟩

theorem openEntry_exact (entry : Entry) :
    always d.exact anyRead (openEntry entry)
      (fun out v' => Stays d g v v' ∧ out = g.node entry) v := by
  rw [openEntry, always_bind]
  refine (loadInode_stays hc entry.inode).mono fun out v' h => ?_
  rw [h.2]
  exact ⟨h.1, rfl⟩

theorem decode_exact (node : Vfs.Node ℕ) :
    always d.exact anyRead (decode node)
      (fun out v' => Stays d g v v' ∧ out = g.decode v.self node) v := by
  rw [decode, always_bind, always_get, Image.decode, hc.layout]
  split
  · exact ⟨⟨hc, rfl, rfl⟩, rfl⟩
  · exact loadInode_stays hc node.id

/-! ## Calls -/

theorem lookupLoop_exact (hinode : g.inode directory.number = some directory)
    (name : List UInt8) (fuel rounds : ℕ) {position : ℕ} (hposition : position < 2 ^ 64) :
    always d.exact anyRead (lookupLoop directory name fuel rounds position)
      (fun out v' => Stays d g v v' ∧
        (g.Good directory → out = g.find directory name fuel rounds position)) v := by
  induction rounds generalizing v position with
  | zero => exact ⟨⟨hc, rfl, rfl⟩, fun _ => rfl⟩
  | succ rounds ih =>
    rw [lookupLoop, always_bind, Image.find]
    refine (nextEntry_exact hc hinode fuel hposition).mono fun out v' h => ?_
    obtain ⟨hstays, hnext, hout⟩ := h
    -- no fuel, no entry, or an entry whose name decides
    rcases out with _ | _ | ⟨entry, next⟩
    · refine ⟨hstays, fun hgood => ?_⟩
      rw [← hout hgood]
    · refine ⟨hstays, fun hgood => ?_⟩
      rw [← hout hgood]
    · dsimp only
      split
      · next hname =>
        refine (ih hstays.cached (hnext entry next rfl)).mono fun out v'' h => ?_
        refine ⟨hstays.trans h.1, fun hgood => ?_⟩
        rw [← hout hgood]
        dsimp only
        rw [if_pos hname]
        exact h.2 hgood
      · next hname =>
        rw [always_bind]
        refine (openEntry_exact hstays.cached entry).mono fun node v'' h => ?_
        refine ⟨hstays.trans h.1, fun hgood => ?_⟩
        rw [← hout hgood]
        dsimp only
        rw [if_neg hname, h.2]

/-- **`lookup`** gives what the image says. -/
theorem lookup_exact (fuel : ℕ) (node : Vfs.Node ℕ) (name : List UInt8) :
    always d.exact anyRead (lookup fuel node name)
      (fun out v' => Stays d g v v' ∧ (g.GoodNode node → out = g.lookup v.self fuel node name))
      v := by
  rw [lookup, always_bind, Image.lookup]
  refine (decode_exact hc node).mono fun out v' h => ?_
  obtain ⟨hstays, hout⟩ := h
  rw [← hout]
  cases out with
  | none => exact ⟨hstays, fun _ => rfl⟩
  | some parent =>
    obtain ⟨hnode, hinode⟩ := decode_inode hout.symm
    dsimp only
    split
    · exact ⟨hstays, fun _ => rfl⟩
    split
    · exact ⟨hstays, fun _ => rfl⟩
    refine (lookupLoop_exact hstays.cached hinode name fuel fuel (Nat.two_pow_pos 64)).mono
      fun out v'' h => ?_
    exact ⟨hstays.trans h.1, fun hgood => h.2 (hgood parent hnode)⟩

theorem listLoop_exact (hinode : g.inode directory.number = some directory)
    (target fuel rounds index : ℕ) {position : ℕ} (hposition : position < 2 ^ 64)
    (hpassed : g.Good directory → g.Passed directory index position) :
    always d.exact anyRead (listLoop directory target fuel rounds index position)
      (fun out v' => Cached d g v' ∧ v'.self = v.self ∧
        (g.Good directory → out = g.nth directory target fuel rounds index position)) v := by
  induction rounds generalizing v index position with
  | zero => exact ⟨hc, rfl, fun _ => rfl⟩
  | succ rounds ih =>
    rw [listLoop, always_bind, Image.nth]
    refine (nextEntry_exact hc hinode fuel hposition).mono fun out v' h => ?_
    obtain ⟨hstays, hnext, hout⟩ := h
    rcases out with _ | _ | ⟨entry, next⟩
    · refine ⟨hstays.cached, hstays.self, fun hgood => ?_⟩
      rw [← hout hgood]
    · refine ⟨hstays.cached, hstays.self, fun hgood => ?_⟩
      rw [← hout hgood]
    · have hposition' := hnext entry next rfl
      dsimp only
      rw [always_bind]
      refine (openEntry_exact hstays.cached entry).mono fun node v'' h => ?_
      obtain ⟨hopened, hnode⟩ := h
      have hstays' := hstays.trans hopened
      -- the place behind the entry is one that the listing passes
      have hbehind : g.Good directory →
          g.Passed directory (if node.isSome then index + 1 else index) next := fun hgood => by
        rw [hnode]
        exact (hpassed hgood).next (hout hgood).symm
      cases node with
      | none =>
        refine (ih hstays'.cached index hposition' hbehind).mono fun out w h => ?_
        refine ⟨h.1, h.2.1.trans hstays'.self, fun hgood => ?_⟩
        rw [← hout hgood]
        dsimp only
        rw [← hnode]
        exact h.2.2 hgood
      | some node =>
        dsimp only
        split
        · next htarget =>
          rw [always_bind, always_modify]
          refine ⟨⟨⟨{ hstays'.cached.sound with listing := hposition' },
            hc.content, hstays'.cached.layout, hstays'.cached.remembers⟩,
            hstays'.cached.loaded, fun inode hinode' hgood => ?_⟩, hstays'.self,
            fun hgood => ?_⟩
          · obtain rfl : inode = directory := Option.some.inj (hinode'.symm.trans hinode)
            exact hbehind hgood
          · rw [← hout hgood]
            dsimp only
            rw [← hnode]
        · next htarget =>
          refine (ih hstays'.cached (index + 1) hposition' hbehind).mono fun out w h => ?_
          refine ⟨h.1, h.2.1.trans hstays'.self, fun hgood => ?_⟩
          rw [← hout hgood]
          dsimp only
          rw [← hnode]
          exact h.2.2 hgood

/-- **`list`** gives what the image says. -/
theorem list_exact (fuel : ℕ) (node : Vfs.Node ℕ) (target : ℕ) :
    always d.exact anyRead (list fuel node target)
      (fun out v' => Cached d g v' ∧ v'.self = v.self ∧
        (g.GoodNode node → out = g.list v.self v.listing fuel node target)) v := by
  rw [list, always_bind, Image.list]
  refine (decode_exact hc node).mono fun out v' h => ?_
  obtain ⟨hstays, hout⟩ := h
  rw [← hout]
  cases out with
  | none => exact ⟨hstays.cached, hstays.self, fun _ => rfl⟩
  | some parent =>
    obtain ⟨hnode, hinode⟩ := decode_inode hout.symm
    dsimp only
    rw [always_bind, always_get, hstays.listing]
    split
    · exact ⟨hstays.cached, hstays.self, fun _ => rfl⟩
    split
    · next hresume =>
      refine (listLoop_exact hstays.cached hinode target fuel fuel _ hc.sound.listing
        (hc.listing parent (by rw [hresume.1]; exact hinode))).mono fun out v'' h => ?_
      exact ⟨h.1, h.2.1.trans hstays.self, fun hgood => h.2.2 (hgood parent hnode)⟩
    · refine (listLoop_exact hstays.cached hinode target fuel fuel 0 (Nat.two_pow_pos 64)
        fun _ => .start).mono fun out v'' h => ?_
      exact ⟨h.1, h.2.1.trans hstays.self, fun hgood => h.2.2 (hgood parent hnode)⟩

/-- **`read`** gives what the image says. -/
theorem read_exact (file : Vfs.Node ℕ) (offset length : ℕ) (buffer : Bool) :
    always d.exact anyRead (read file offset length buffer)
      (fun out v' => Stays d g v v' ∧
        (g.GoodNode file → out = g.read v.self file offset length buffer)) v := by
  rw [read, always_bind, Image.read]
  refine (decode_exact hc file).mono fun out v' h => ?_
  obtain ⟨hstays, hout⟩ := h
  rw [← hout]
  cases out with
  | none => exact ⟨hstays, fun _ => rfl⟩
  | some inode =>
    obtain ⟨hnode, hinode⟩ := decode_inode hout.symm
    dsimp only
    split_ifs
    · exact ⟨hstays, fun _ => rfl⟩
    · exact ⟨hstays, fun _ => rfl⟩
    · exact ⟨hstays, fun _ => rfl⟩
    · exact ⟨hstays, fun _ => rfl⟩
    · refine (readInode_exact hstays.cached.toReflects hinode offset length).mono
        fun out v'' h => ?_
      obtain ⟨hr, hfinds, hread⟩ := h
      exact ⟨hstays.trans ⟨hstays.cached.of_finds hr hfinds, hfinds.self, hfinds.listing⟩,
        fun hgood => hread (hgood inode hnode)⟩

/-- **Every call gives what the image says**, and what is remembered stays right. -/
theorem call_exact (fuel : ℕ) (c : Call) :
    always d.exact anyRead (call fuel c)
      (fun out v' => Cached d g v' ∧ v'.self = v.self ∧
        (g.GoodNode c.node → out = g.call v.self v.listing fuel c)) v := by
  cases c with
  | lookup directory name =>
    rw [call, always_bind, Image.call]
    refine (lookup_exact hc fuel directory name).mono fun out v' h => ?_
    refine ⟨h.1.cached, h.1.self, fun hgood => ?_⟩
    rw [← h.2 hgood]
  | list directory position =>
    rw [call, always_bind, Image.call]
    refine (list_exact hc fuel directory position).mono fun out v' h => ?_
    refine ⟨h.1, h.2.1, fun hgood => ?_⟩
    rw [← h.2.2 hgood]
  | read file offset length buffer =>
    rw [call, always_bind, Image.call]
    refine (read_exact hc file offset length buffer).mono fun out v' h => ?_
    refine ⟨h.1.cached, h.1.self, fun hgood => ?_⟩
    rw [← h.2 hgood]

end ShirleysOS.Ext4
