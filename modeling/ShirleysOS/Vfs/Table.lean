import Mathlib.Data.List.Perm.Subperm
import ShirleysOS.Vfs.Files

/-!
# The mount table over whole runs

Whatever is mounted and unmounted, the mount points are distinct canonical paths, so resolution
does not depend on the order of the table. That there is a root, and that the parent of every
mount point is a directory, is checked when something is mounted and not when something is mounted
or unmounted above it: it holds along the runs that do neither.
-/

namespace ShirleysOS.Vfs

open Lib

/-- The calls that change the tables. -/
inductive Call (Fs : Type)
  | mount (path : List UInt8) (filesystem : Fs)
  | unmount (path : List UInt8)
  | open (path : List UInt8) (flags : OpenFlags) (base : Option (List UInt8))
  | close (descriptor : ℤ)

section Runs

variable {W Fs : Type} [DecidableEq Fs] (F : FileSystems W Fs)

/-- Whether a file is open on a file system. -/
def busy (files : Fin maxOpenFiles → Option (OpenFile Fs)) (filesystem : Fs) : Bool :=
  (List.finRange maxOpenFiles).any fun index =>
    (files index).any fun file => file.node.filesystem == filesystem

/-- One call; one that is refused changes nothing. -/
def Call.perform (s : State W Fs) : Call Fs → State W Fs
  | .mount path filesystem =>
    { s with mounts := (Vfs.mount F s.world s.mounts path filesystem).getD s.mounts }
  | .unmount path => { s with mounts := (Vfs.unmount (busy s.files) s.mounts path).getD s.mounts }
  | .open path flags base => (openFile F s path flags base).2
  | .close descriptor => (Vfs.close s descriptor).2

/-- A sequence of calls. -/
def run (calls : List (Call Fs)) (s : State W Fs) : State W Fs :=
  calls.foldl (Call.perform F) s

end Runs

section Mounting

variable {W Fs : Type} {F : FileSystems W Fs} {w : W} {mounts mounts' : List (Mount Fs)}

theorem table_nil : Table ([] : List (Mount Fs)) :=
  ⟨fun _ h => absurd h List.not_mem_nil, fun _ h => absurd h List.not_mem_nil,
    fun _ h => absurd h List.not_mem_nil, List.nodup_nil⟩

theorem Table.of_perm_cons (h : Table mounts) {removed : Mount Fs}
    (hperm : mounts.Perm (removed :: mounts')) : Table mounts' := by
  have hmem : ∀ mount ∈ mounts', mount ∈ mounts := fun mount hmount =>
    hperm.mem_iff.mpr (List.mem_cons_of_mem removed hmount)
  refine ⟨fun mount hmount => h.canonical mount (hmem mount hmount),
    fun mount hmount => h.path mount (hmem mount hmount),
    fun mount hmount => h.fits mount (hmem mount hmount), ?_⟩
  have hdistinct := (hperm.map Mount.path).nodup_iff.mp h.distinct
  rw [List.map_cons] at hdistinct
  exact (List.nodup_cons.mp hdistinct).2

/-- What `mount` adds: the mount point of the path, whose parent is a directory. -/
theorem mount_eq_some {path : List UInt8} {filesystem : Fs}
    (h : mount F w mounts path filesystem = some mounts') :
    ∃ added : Mount Fs, mounts' = mounts ++ [added] ∧ added.filesystem = filesystem ∧
      Canonical added.names ∧ added.path = render added.names ∧
      added.path.length + 1 ≤ maxPathLength ∧ added.names = resolve path [] ∧
      (∀ mount ∈ mounts, mount.path ≠ added.path) ∧
      (mounts = [] → added.names = []) ∧
      (mounts ≠ [] → ∃ node, stat F w mounts (removeLastComponent added.path) none = some node ∧
        node.type = .directory) := by
  rw [mount] at h
  split at h
  · cases h
  split at h
  · cases h
  split at h
  · cases h
  -- the first mount is that of the root
  rename_i hfirst
  split at h
  · cases h
  rename_i normalized hnormalize
  obtain ⟨hcanonical, hfits, rfl⟩ := normalize_eq_some forall_none hnormalize
  split at h
  · cases h
  rename_i hnew
  split at h
  · cases h
  rename_i hparent
  refine ⟨⟨render (resolve path []), filesystem⟩, (Option.some.inj h).symm, rfl, ?_⟩
  have hnames : Mount.names ⟨render (resolve path []), filesystem⟩ = resolve path [] :=
    words_render hcanonical.plain
  rw [hnames]
  refine ⟨hcanonical, rfl, hfits, rfl, ?_, ?_, ?_⟩
  · intro mount hmount hsame
    exact hnew (List.any_eq_true.mpr ⟨mount, hmount, beq_iff_eq.mpr hsame⟩)
  · intro hempty
    have hpath : path = [slash] := by
      by_contra hne
      exact hfirst ⟨List.length_eq_zero_iff.mpr hempty, hne⟩
    rw [hpath]
    rfl
  · intro hne
    have hdirectory : (stat F w mounts (removeLastComponent (render (resolve path []))) none).map
        (·.type) = some .directory := by
      by_contra hnot
      exact hparent ⟨fun hzero => hne (List.length_eq_zero_iff.mp hzero), hnot⟩
    obtain ⟨node, hstat, htype⟩ := Option.map_eq_some_iff.mp hdirectory
    exact ⟨node, hstat, htype⟩

/-- **Mounting keeps the mount points distinct and canonical.** -/
theorem Table.mount (h : Table mounts) {path : List UInt8} {filesystem : Fs}
    (hmount : Vfs.mount F w mounts path filesystem = some mounts') : Table mounts' := by
  obtain ⟨added, rfl, -, hcanonical, hpath, hfits, -, hnew, -, -⟩ := mount_eq_some hmount
  have hall {P : Mount Fs → Prop} (hold : ∀ mount ∈ mounts, P mount) (hadded : P added) :
      ∀ mount ∈ mounts ++ [added], P mount := by
    intro mount hmount
    rcases List.mem_append.mp hmount with hmount | hmount
    · exact hold mount hmount
    · exact List.mem_singleton.mp hmount ▸ hadded
  refine ⟨hall h.canonical hcanonical, hall h.path hpath, hall h.fits hfits, ?_⟩
  rw [List.map_append, List.map_singleton, List.nodup_append_comm, List.singleton_append,
    List.nodup_cons]
  refine ⟨fun hmem => ?_, h.distinct⟩
  obtain ⟨mount, hmount, hsame⟩ := List.mem_map.mp hmem
  exact hnew mount hmount hsame

/-- A mount point covers nothing but what is behind it. -/
theorem covers_append_iff {added mount : Mount Fs} {names : List (List UInt8)}
    (hnot : ¬ added.names <+: names) :
    Covers (mounts ++ [added]) names mount ↔ Covers mounts names mount := by
  have hold {other : Mount Fs} (hother : other ∈ mounts ++ [added])
      (habove : other.names <+: names) : other ∈ mounts := by
    rcases List.mem_append.mp hother with hother | hother
    · exact hother
    · exact absurd (List.mem_singleton.mp hother ▸ habove) hnot
  constructor
  · intro h
    exact ⟨hold h.mem h.above, h.above, fun other hother => h.longest other
      (List.mem_append_left _ hother)⟩
  · intro h
    exact ⟨List.mem_append_left _ h.mem, h.above, fun other hother habove =>
      h.longest other (hold hother habove) habove⟩

/-- The entry at an index goes, whatever the order of the others is then. -/
theorem removeMount_perm {index : ℕ} (hindex : index < mounts.length) :
    (removeMount mounts index).Perm (mounts.eraseIdx index) := by
  rcases List.eq_nil_or_concat mounts with rfl | ⟨others, last, rfl⟩
  · cases hindex
  · rw [List.concat_eq_append] at hindex ⊢
    rw [removeMount, List.getLast?_append_of_ne_nil _ (List.cons_ne_nil _ _)]
    dsimp only [List.getLast?_singleton]
    rw [List.length_append, List.length_singleton] at hindex
    rcases Nat.lt_or_ge index others.length with hlt | hge
    · rw [List.set_append_left _ _ hlt, List.dropLast_concat, List.eraseIdx_append_of_lt_length hlt,
        List.set_eq_take_append_cons_drop, if_pos hlt, List.eraseIdx_eq_take_drop_succ]
      exact List.perm_middle.trans (List.perm_append_singleton _ _).symm
    · obtain rfl : index = others.length := by omega
      rw [List.set_append_right _ _ (Nat.le_refl _), Nat.sub_self, List.set_cons_zero,
        List.dropLast_concat, List.eraseIdx_append_of_length_le (Nat.le_refl _), Nat.sub_self,
        List.eraseIdx_cons_zero, List.append_nil]

/-- What `unmount` removes: the mount point of the path. -/
theorem unmount_eq_some {busy : Fs → Bool} {path : List UInt8}
    (h : unmount busy mounts path = some mounts') :
    ∃ removed : Mount Fs, mounts.Perm (removed :: mounts') ∧
      removed.names = resolve path [] := by
  rw [unmount] at h
  split at h
  · cases h
  rename_i normalized hnormalize
  obtain ⟨hcanonical, -, rfl⟩ := normalize_eq_some forall_none hnormalize
  split at h
  · cases h
  rename_i index hfind
  split at h
  · cases h
  · obtain rfl := Option.some.inj h
    obtain ⟨hindex, hpath, -⟩ := List.findIdx?_eq_some_iff_getElem.mp hfind
    refine ⟨mounts[index], ?_, ?_⟩
    · exact (List.getElem_cons_eraseIdx_perm hindex).symm.trans
        ((removeMount_perm hindex).symm.cons _)
    · rw [Mount.names, beq_iff_eq.mp hpath]
      exact words_render hcanonical.plain

/-- **Unmounting keeps them so.** -/
theorem Table.unmount (h : Table mounts) {busy : Fs → Bool} {path : List UInt8}
    (hunmount : Vfs.unmount busy mounts path = some mounts') : Table mounts' := by
  obtain ⟨removed, hperm, -⟩ := unmount_eq_some hunmount
  exact h.of_perm_cons hperm

end Mounting

section Resolving

variable {W Fs : Type} [DecidableEq Fs] {F : FileSystems W Fs}

/-- One call keeps the mount points distinct and canonical. -/
theorem Table.perform {s : State W Fs} (h : Table s.mounts) (call : Call Fs) :
    Table (call.perform F s).mounts := by
  cases call with
  | mount path filesystem =>
    rw [Call.perform]
    dsimp only
    cases hmount : Vfs.mount F s.world s.mounts path filesystem with
    | none => exact h
    | some mounts' => exact h.mount hmount
  | unmount path =>
    rw [Call.perform]
    dsimp only
    cases hunmount : Vfs.unmount (busy s.files) s.mounts path with
    | none => exact h
    | some mounts' => exact h.unmount hunmount
  | «open» path flags base => exact (openFile_mounts s path flags base).symm ▸ h
  | close descriptor => exact (close_mounts s descriptor).symm ▸ h

/-- **So does a run.** -/
theorem run_table {s : State W Fs} (h : Table s.mounts) (calls : List (Call Fs)) :
    Table (run F calls s).mounts := by
  induction calls generalizing s with
  | nil => exact h
  | cons call calls ih => exact ih (h.perform call)

/-- **A mount is local, and can be taken back.** After any calls, a file system that is mounted
changes nothing about the paths that are not behind its mount point, what resolves behind it with
no other mount point in between is its own, and unmounting it while none of its files is open gives
the table from before. -/
theorem mount_local (w₀ : W) (calls : List (Call Fs)) {w : W} {path : List UInt8} {filesystem : Fs}
    {mounts' : List (Mount Fs)}
    (hmount : Vfs.mount F w (run F calls (initial w₀)).mounts path filesystem = some mounts') :
    let mounts := (run F calls (initial w₀)).mounts
    (∀ (w' : W) (other : List UInt8) (base : Option (List (List UInt8))),
      (∀ names ∈ base, Canonical names) →
        let names := resolve other (base.getD [])
        (¬ resolve path [] <+: names → stat F w' mounts' other (base.map render) =
          stat F w' mounts other (base.map render)) ∧
        (resolve path [] <+: names →
          (∀ mount ∈ mounts, mount.names <+: names → mount.names <+: resolve path []) →
          ∀ node, stat F w' mounts' other (base.map render) = some node →
            node.filesystem = filesystem)) ∧
    ∀ busy : Fs → Bool, busy filesystem = false →
      Vfs.unmount busy mounts' path = some mounts := by
  intro mounts
  have h : Table mounts := run_table table_nil calls
  change Vfs.mount F w mounts path filesystem = some mounts' at hmount
  clear_value mounts
  have h' : Table mounts' := h.mount hmount
  obtain ⟨added, rfl, hfilesystem, hcanonical, hpath, hfits, hnames, hnew, -⟩  :=
    mount_eq_some hmount
  refine ⟨fun w' other base hbase => ⟨fun hnot => ?_, fun habove hbetween node hstat => ?_⟩,
    fun busy hidle => ?_⟩
  · refine Option.ext fun node => ?_
    rw [stat_eq_some h' hbase, stat_eq_some h hbase]
    simp only [covers_append_iff (hnames ▸ hnot)]
  · obtain ⟨mount, entry, -, hcovers, -, rfl⟩ := (stat_eq_some h' hbase other node).mp hstat
    rcases List.mem_append.mp hcovers.mem with hmem | hmem
    · -- an old mount point would be as long as the new one, and so the same
      have hle := hcovers.longest added (List.mem_append_right _ (List.mem_singleton_self _))
        (hnames ▸ habove)
      have hsame : mount.names = added.names :=
        (hnames ▸ hbetween mount hmem hcovers.above).eq_of_length_le hle
      exact absurd (by rw [h.path mount hmem, hsame, hpath]) (hnew mount hmem)
    · rw [List.mem_singleton.mp hmem, hfilesystem]
  · have hnormalize : normalize path none maxPathLength = some added.path := by
      cases hnormalize : normalize path none maxPathLength with
      | none => simp [Vfs.mount, hnormalize] at hmount
      | some normalized =>
        obtain ⟨-, -, rfl⟩ := normalize_eq_some forall_none hnormalize
        rw [hpath, hnames]
        rfl
    -- the new mount is the last of the table, and removed from there
    have hindex : (mounts ++ [added]).findIdx? (fun mount => mount.path == added.path) =
        some mounts.length := by
      rw [List.findIdx?_append, List.findIdx?_eq_none_iff.mpr fun mount hmem =>
        beq_eq_false_iff_ne.mpr (hnew mount hmem)]
      simp
    rw [Vfs.unmount, hnormalize]
    dsimp only
    rw [hindex]
    simp [removeMount, hfilesystem, hidle]

/-- **Resolution.** After any calls, a path resolves from a canonical base exactly when it
normalizes and the file system with the longest mount point above it finds the names behind that,
through directories only; the node has that file system and the normalized path. Two tables with
the same mounts, in whatever order, resolve alike. -/
theorem stat_resolves (w₀ : W) (calls : List (Call Fs)) :
    let mounts := (run F calls (initial w₀)).mounts
    (∀ (w : W) (path : List UInt8) (base : Option (List (List UInt8))),
      (∀ names ∈ base, Canonical names) → ∀ node : Node Fs,
        stat F w mounts path (base.map render) = some node ↔
          ∃ names mount entry, normalize path (base.map render) maxPathLength =
            some (render names) ∧
            Canonical names ∧ Covers mounts names mount ∧
            walkNames F w mount.filesystem (names.drop mount.names.length) = some entry ∧
            node = ⟨entry, mount.filesystem, render names⟩) ∧
    ∀ (w₁ : W) (calls' : List (Call Fs)),
      (∀ mount, mount ∈ mounts ↔ mount ∈ (run F calls' (initial w₁)).mounts) →
      ∀ (w : W) (path : List UInt8) (base : Option (List (List UInt8))),
        (∀ names ∈ base, Canonical names) →
          stat F w mounts path (base.map render) =
            stat F w (run F calls' (initial w₁)).mounts path (base.map render) := by
  have htable (w₀ : W) (calls : List (Call Fs)) : Table (run F calls (initial w₀)).mounts :=
    run_table table_nil calls
  refine ⟨fun w path base hbase node => ?_, fun w₁ calls' hsame w path base hbase => ?_⟩
  · rw [stat_eq_some (htable w₀ calls) hbase]
    constructor
    · rintro ⟨mount, entry, hnormalize, hcovers, hwalk, hnode⟩
      obtain ⟨hnames, -⟩ := normalize_eq_some hbase hnormalize
      exact ⟨_, mount, entry, hnormalize, hnames, hcovers, hwalk, hnode⟩
    · rintro ⟨names, mount, entry, hnormalize, hnames, hcovers, hwalk, hnode⟩
      obtain ⟨hresolve, -, heq⟩ := normalize_eq_some hbase hnormalize
      obtain rfl := render_inj hnames.plain hresolve.plain heq
      exact ⟨mount, entry, hnormalize, hcovers, hwalk, hnode⟩
  · refine Option.ext fun node => ?_
    rw [stat_eq_some (htable w₀ calls) hbase, stat_eq_some (htable w₁ calls') hbase]
    -- only `Covers` looks at the table, and it asks for membership
    refine exists_congr fun mount => exists_congr fun entry => and_congr_right fun _ =>
      and_congr_left fun _ => ?_
    exact ⟨Covers.congr hsame, Covers.congr fun mount => (hsame mount).symm⟩

end Resolving

/-- Two file systems, each with an empty root and nothing else. -/
def emptyFileSystems : FileSystems Unit Bool where
  root _ _ := some ⟨0, .directory, 0, []⟩
  lookup _ _ _ _ := none
  list _ _ _ _ := none
  writable _ _ _ := false
  create _ _ _ _ _ := (.error .unsupported, ())
  truncate _ _ _ _ := (.unsupported, ())
  read _ _ _ _ _ := (⟨0, .none⟩, [], ())

/-- The path `/a`. -/
def pathA : List UInt8 := [slash, 0x61]

theorem stat_resolves_nested :
    let mounts := (run emptyFileSystems [.mount [slash] false, .mount pathA true]
      (initial ())).mounts
    ∃ names mount entry, normalize pathA none maxPathLength = some (render names) ∧
      Canonical names ∧ Covers mounts names mount ∧
      walkNames emptyFileSystems () mount.filesystem (names.drop mount.names.length) = some entry ∧
      (⟨⟨0, .directory, 0, []⟩, true, pathA⟩ : Node Bool) =
        ⟨entry, mount.filesystem, render names⟩ :=
  ((stat_resolves (F := emptyFileSystems) () [.mount [slash] false, .mount pathA true]).1 () pathA
    none (fun _ h => nomatch h) _).mp (by decide)

theorem mount_local_nested :
    let mounts := (run emptyFileSystems [.mount [slash] false] (initial ())).mounts
    Vfs.mount emptyFileSystems () mounts pathA true = some [⟨[slash], false⟩, ⟨pathA, true⟩] ∧
      Vfs.unmount not [⟨[slash], false⟩, ⟨pathA, true⟩] pathA = some mounts :=
  ⟨by decide, (mount_local (F := emptyFileSystems) (w := ()) () [.mount [slash] false]
    (by decide : Vfs.mount _ _ _ pathA true = some [⟨[slash], false⟩, ⟨pathA, true⟩])).2 not rfl⟩

/-! ## The root and the parents -/

/-- The contents of the file systems are fixed: their state does not change what is found. -/
def Fixed {W Fs : Type} (F : FileSystems W Fs) : Prop :=
  ∀ w w', F.root w = F.root w' ∧ F.lookup w = F.lookup w'

/-- One list of names is above another. -/
def StrictlyAbove (above names : List (List UInt8)) : Prop := above <+: names ∧ above ≠ names

instance (above names : List (List UInt8)) : Decidable (StrictlyAbove above names) :=
  inferInstanceAs (Decidable (_ ∧ _))

/-- A path is above no mount point. -/
abbrev AboveNone {Fs : Type} (path : List UInt8) (mounts : List (Mount Fs)) : Prop :=
  ∀ mount ∈ mounts, ¬ StrictlyAbove (resolve path []) mount.names

/-- A call that mounts and unmounts nothing above a mount point, unless it is refused. -/
def Clear {W Fs : Type} [DecidableEq Fs] (F : FileSystems W Fs) (s : State W Fs) : Call Fs → Prop
  | .mount path filesystem =>
    (Vfs.mount F s.world s.mounts path filesystem).isSome → AboveNone path s.mounts
  | .unmount path =>
    (Vfs.unmount (busy s.files) s.mounts path).isSome → AboveNone path s.mounts
  | _ => True

instance {W Fs : Type} [DecidableEq Fs] (F : FileSystems W Fs) (s : State W Fs) :
    (call : Call Fs) → Decidable (Clear F s call)
  | .mount path filesystem => inferInstanceAs (Decidable
      ((Vfs.mount F s.world s.mounts path filesystem).isSome → AboveNone path s.mounts))
  | .unmount path => inferInstanceAs (Decidable
      ((Vfs.unmount (busy s.files) s.mounts path).isSome → AboveNone path s.mounts))
  | .open _ _ _ => inferInstanceAs (Decidable True)
  | .close _ => inferInstanceAs (Decidable True)

/-- The root is mounted if anything is, and the parent of every other mount point resolves to a
directory. -/
structure Rooted {W Fs : Type} (F : FileSystems W Fs) (w : W) (mounts : List (Mount Fs)) :
    Prop where
  root : mounts ≠ [] → ∃ mount ∈ mounts, mount.names = []
  parent : ∀ mount ∈ mounts, mount.names ≠ [] →
    ∃ node, stat F w mounts (render mount.names.dropLast) none = some node ∧
      node.type = .directory

section Rooted

variable {W Fs : Type} {F : FileSystems W Fs} {w w' : W} {mounts mounts' : List (Mount Fs)}
  {names : List (List UInt8)}

theorem stat_congr (h : Fixed F) (path : List UInt8) (base : Option (List UInt8)) :
    stat F w mounts path base = stat F w' mounts path base := by
  obtain ⟨hroot, hlookup⟩ := h w w'
  have hstep (filesystem : Fs) : walkStep F w filesystem = walkStep F w' filesystem := by
    funext current component
    rw [walkStep, walkStep, hlookup]
  have hwalk (mount : Mount Fs) (path : List UInt8) : walk F w mount path =
      walk F w' mount path := by
    rw [walk, walk, hroot, hstep]
  rw [stat, stat]
  split
  · rfl
  · split
    · rfl
    · exact hwalk _ _

theorem Rooted.congr (h : Fixed F) (hrooted : Rooted F w mounts) : Rooted F w' mounts := by
  refine ⟨hrooted.root, fun mount hmount hne => ?_⟩
  obtain ⟨node, hnode, htype⟩ := hrooted.parent mount hmount hne
  exact ⟨node, (stat_congr h _ _).trans hnode, htype⟩

theorem strictlyAbove_of_dropLast {above : List (List UInt8)} (hne : names ≠ [])
    (h : above <+: names.dropLast) : StrictlyAbove above names := by
  refine ⟨h.trans <| List.dropLast_prefix names, ?_⟩
  rintro rfl
  have hlength := h.length_le
  rw [List.length_dropLast] at hlength
  have := List.length_pos_iff.mpr hne
  omega

/-- The parent of a mount point is a canonical path that fits. -/
theorem Table.parent (h : Table mounts) {mount : Mount Fs} (hmount : mount ∈ mounts) :
    Canonical mount.names.dropLast ∧
      (render mount.names.dropLast).length + 1 ≤ maxPathLength := by
  refine ⟨(h.canonical mount hmount).dropLast, ?_⟩
  have hshorter := length_render_dropLast (h.canonical mount hmount).plain
  have hfits := h.fits mount hmount
  rw [h.path mount hmount] at hfits
  omega

/-- A path keeps resolving when the mount point that covers it still does. -/
theorem stat_of_covers (h : Table mounts) (h' : Table mounts') (hnames : Canonical names)
    (hfits : (render names).length + 1 ≤ maxPathLength)
    (hcovers : ∀ mount, Covers mounts names mount → Covers mounts' names mount)
    {node : Node Fs} (hstat : stat F w mounts (render names) none = some node) :
    stat F w mounts' (render names) none = some node := by
  obtain ⟨mount, entry, hmount, hwalk, hnode⟩ := (stat_render h hnames hfits node).mp hstat
  exact (stat_render h' hnames hfits node).mpr ⟨mount, entry, hcovers mount hmount, hwalk, hnode⟩

/-- **Mounting** what is above no mount point keeps the parents. -/
theorem Rooted.mount (h : Table mounts) (hrooted : Rooted F w mounts) {path : List UInt8}
    {filesystem : Fs} (hclear : AboveNone path mounts)
    (hmount : Vfs.mount F w mounts path filesystem = some mounts') : Rooted F w mounts' := by
  have h' := h.mount hmount
  obtain ⟨added, rfl, -, hcanonical, hpath, hfits, hadded, -, hfirst, hparent⟩ :=
    mount_eq_some hmount
  -- the new mount point covers no parent
  have hkeeps {parent : List (List UInt8)} (hnot : ¬ added.names <+: parent) (mount : Mount Fs) :
      Covers mounts parent mount → Covers (mounts ++ [added]) parent mount :=
    (covers_append_iff hnot).mpr
  constructor
  · intro _
    by_cases hempty : mounts = []
    · exact ⟨added, List.mem_append_right _ (List.mem_singleton_self _), hfirst hempty⟩
    · obtain ⟨mount, hmem, hnil⟩ := hrooted.root hempty
      exact ⟨mount, List.mem_append_left _ hmem, hnil⟩
  · intro mount hmem hne
    obtain ⟨hcanonicalParent, hfitsParent⟩ := h'.parent hmem
    rcases List.mem_append.mp hmem with hmem | hmem
    · obtain ⟨node, hstat, htype⟩ := hrooted.parent mount hmem hne
      refine ⟨node, stat_of_covers h h' hcanonicalParent hfitsParent (hkeeps fun habove => ?_)
        hstat, htype⟩
      exact hclear mount hmem (hadded ▸ strictlyAbove_of_dropLast hne habove)
    · obtain rfl := List.mem_singleton.mp hmem
      have hnonempty : mounts ≠ [] := fun hempty => hne (hfirst hempty)
      obtain ⟨node, hstat, htype⟩ := hparent hnonempty
      rw [hpath, removeLastComponent_render hcanonical.plain] at hstat
      refine ⟨node, stat_of_covers h h' hcanonicalParent hfitsParent (hkeeps fun habove => ?_)
        hstat, htype⟩
      exact (strictlyAbove_of_dropLast hne habove).2 rfl

/-- **Unmounting** what is above no mount point keeps the parents. -/
theorem Rooted.unmount (h : Table mounts) (hrooted : Rooted F w mounts) {busy : Fs → Bool}
    {path : List UInt8} (hclear : AboveNone path mounts)
    (hunmount : Vfs.unmount busy mounts path = some mounts') : Rooted F w mounts' := by
  have h' := h.unmount hunmount
  obtain ⟨removed, hperm, hremoved⟩ := unmount_eq_some hunmount
  have hmem {mount : Mount Fs} : mount ∈ mounts ↔ mount = removed ∨ mount ∈ mounts' := by
    rw [hperm.mem_iff, List.mem_cons]
  constructor
  · intro hne
    obtain ⟨other, hother⟩ := List.exists_mem_of_ne_nil _ hne
    obtain ⟨mount, hmount, hnil⟩ := hrooted.root (List.ne_nil_of_mem (hmem.mpr (Or.inr hother)))
    rcases hmem.mp hmount with rfl | hmount
    · -- the root would be above what is left
      have hnames : other.names = [] := by
        by_contra hnames
        refine hclear other (hmem.mpr (Or.inr hother)) ⟨?_, ?_⟩
        · rw [← hremoved, hnil]
          exact List.nil_prefix
        · rw [← hremoved, hnil]
          exact Ne.symm hnames
      exact ⟨other, hother, hnames⟩
    · exact ⟨mount, hmount, hnil⟩
  · intro mount hmount hne
    have hold : mount ∈ mounts := hmem.mpr (Or.inr hmount)
    obtain ⟨hcanonicalParent, hfitsParent⟩ := h'.parent hmount
    obtain ⟨node, hstat, htype⟩ := hrooted.parent mount hold hne
    refine ⟨node, stat_of_covers h h' hcanonicalParent hfitsParent (fun cover hcovers => ?_) hstat,
      htype⟩
    refine ⟨?_, hcovers.above, fun other hother => hcovers.longest other (hmem.mpr (Or.inr hother))⟩
    rcases hmem.mp hcovers.mem with rfl | hcover
    · exact absurd (strictlyAbove_of_dropLast hne hcovers.above)
        (hremoved ▸ hclear mount hold)
    · exact hcover

end Rooted

section RootedRuns

variable {W Fs : Type} [DecidableEq Fs] {F : FileSystems W Fs}

theorem Rooted.perform {s : State W Fs} (hfixed : Fixed F) (h : Table s.mounts)
    (hrooted : Rooted F s.world s.mounts) {call : Call Fs} (hclear : Clear F s call) :
    Rooted F (call.perform F s).world (call.perform F s).mounts := by
  apply Rooted.congr (w := s.world) hfixed
  cases call with
  | mount path filesystem =>
    rw [Call.perform]
    dsimp only
    cases hmount : Vfs.mount F s.world s.mounts path filesystem with
    | none => exact hrooted
    | some mounts' => exact hrooted.mount h (hclear (Option.isSome_of_eq_some hmount)) hmount
  | unmount path =>
    rw [Call.perform]
    dsimp only
    cases hunmount : Vfs.unmount (busy s.files) s.mounts path with
    | none => exact hrooted
    | some mounts' => exact hrooted.unmount h (hclear (Option.isSome_of_eq_some hunmount)) hunmount
  | «open» path flags base => exact (openFile_mounts s path flags base).symm ▸ hrooted
  | close descriptor => exact (close_mounts s descriptor).symm ▸ hrooted

/-- Every call of a sequence is clear when it is made. -/
def ClearRun (F : FileSystems W Fs) : List (Call Fs) → State W Fs → Prop
  | [], _ => True
  | call :: calls, s => Clear F s call ∧ ClearRun F calls (call.perform F s)

instance : (calls : List (Call Fs)) → (s : State W Fs) → Decidable (ClearRun F calls s)
  | [], _ => inferInstanceAs (Decidable True)
  | call :: calls, s =>
    have := instDecidableClearRun calls (call.perform F s)
    inferInstanceAs (Decidable (Clear F s call ∧ ClearRun F calls (call.perform F s)))

theorem run_rooted_of {s : State W Fs} (hfixed : Fixed F) (h : Table s.mounts)
    (hrooted : Rooted F s.world s.mounts) {calls : List (Call Fs)} (hclear : ClearRun F calls s) :
    Rooted F (run F calls s).world (run F calls s).mounts := by
  induction calls generalizing s with
  | nil => exact hrooted
  | cons call calls ih =>
    exact ih (h.perform call) (hrooted.perform hfixed h hclear.1) hclear.2

/-- **The mount table**, after any calls that mount and unmount nothing above a mount point, over
file systems with fixed contents: its paths are distinct, canonical and absolute, the root is among
them if there are any, and the parent of each of the others resolves to a directory. -/
theorem run_rooted (hfixed : Fixed F) (w₀ : W) (calls : List (Call Fs))
    (hclear : ClearRun F calls (initial w₀)) :
    let s := run F calls (initial w₀)
    (s.mounts.map Mount.path).Nodup ∧
      (∀ mount ∈ s.mounts, Canonical mount.names ∧ mount.path = render mount.names) ∧
      (s.mounts ≠ [] → ∃ mount ∈ s.mounts, mount.path = [slash]) ∧
      ∀ mount ∈ s.mounts, mount.path ≠ [slash] →
        ∃ node, stat F s.world s.mounts (removeLastComponent mount.path) none = some node ∧
          node.type = .directory := by
  intro s
  have htable : Table s.mounts := run_table table_nil calls
  have hrooted : Rooted F s.world s.mounts := by
    refine run_rooted_of hfixed table_nil ⟨fun h => absurd rfl h, ?_⟩ hclear
    exact fun mount hmount => absurd hmount List.not_mem_nil
  refine ⟨htable.distinct, fun mount hmount => ⟨htable.canonical mount hmount,
    htable.path mount hmount⟩, fun hne => ?_, fun mount hmount hne => ?_⟩
  · obtain ⟨mount, hmount, hnil⟩ := hrooted.root hne
    exact ⟨mount, hmount, by rw [htable.path mount hmount, hnil]; rfl⟩
  · rw [htable.path mount hmount] at hne ⊢
    rw [removeLastComponent_render (htable.canonical mount hmount).plain]
    exact hrooted.parent mount hmount fun hnil => hne (by rw [hnil]; rfl)

end RootedRuns

theorem run_rooted_nested :
    ∃ mount ∈ (run emptyFileSystems [.mount [slash] false, .mount pathA true] (initial ())).mounts,
      mount.path = [slash] :=
  (run_rooted (F := emptyFileSystems) (fun _ _ => ⟨rfl, rfl⟩) ()
    [.mount [slash] false, .mount pathA true] (by decide)).2.2.1 (by decide)

/-- The root can be unmounted below other mount points. -/
theorem run_unrooted :
    let mounts := (run emptyFileSystems
      [.mount [slash] false, .mount pathA true, .unmount [slash]] (initial ())).mounts
    mounts ≠ [] ∧ ¬ ∃ mount ∈ mounts, mount.path = [slash] := by
  decide

end ShirleysOS.Vfs
