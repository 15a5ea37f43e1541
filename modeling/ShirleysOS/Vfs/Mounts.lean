import Mathlib.Data.List.MinMax
import Mathlib.Data.List.Nodup
import ShirleysOS.Storage.BlockDevice
import ShirleysOS.Vfs.Path

/-!
# The mount table

A path is answered by the file system with the longest mount point above it, which looks up the
names behind the mount point one by one. The table is an array that `unmount` keeps dense by moving
its last entry, so its order says nothing. Source: `kernel/fs/vfs.cpp`.
-/

namespace ShirleysOS.Vfs

open Lib

/-- `Type`. -/
inductive NodeType
  | file
  | directory
  | characterDevice
  | blockDevice
deriving DecidableEq, Repr

/-- What a file system says about a node. -/
structure Entry where
  id : ℕ
  type : NodeType
  size : ℕ
  name : List UInt8
deriving DecidableEq, Repr

/-- `Node`: an entry with the file system that it is from and the path that it was found at. -/
structure Node (Fs : Type) extends Entry where
  filesystem : Fs
  path : List UInt8
deriving DecidableEq, Repr

/-- What file systems answer, when they are in the state `W`; a file system is known by its
address, an element of `Fs`. -/
structure FileSystems (W Fs : Type) where
  root : W → Fs → Option Entry
  lookup : W → Fs → Entry → List UInt8 → Option Entry
  list : W → Fs → Entry → ℕ → Option Entry
  writable : W → Fs → Entry → Bool
  create : W → Fs → Entry → List UInt8 → NodeType → Except Storage.Error Entry × W
  truncate : W → Fs → Entry → ℕ → Storage.Error × W
  read : W → Fs → Entry → ℕ → ℕ → Storage.Result × List UInt8 × W

/-- `Mount`. -/
structure Mount (Fs : Type) where
  path : List UInt8
  filesystem : Fs
deriving DecidableEq, Repr

abbrev maxMounts : ℕ := 4

section Resolution

variable {W Fs : Type} (F : FileSystems W Fs) (w : W)

/-- The loop of `mount_for`: the first of the longest mount points above the path. -/
def mountFor (mounts : List (Mount Fs)) (path : List UInt8) : Option (Mount Fs) :=
  mounts.foldl
    (fun best candidate =>
      if !pathStartsWith path candidate.path then best
      else
        match best with
        | none => some candidate
        | some mount =>
          if candidate.path.length ≤ mount.path.length then best else some candidate)
    none

/-- One component of `walk`: only a directory can be descended into. -/
def walkStep (filesystem : Fs) (current : Node Fs) (component : List UInt8) : Option (Node Fs) :=
  if component.length + 1 > maxComponent then none
  else if current.type ≠ .directory then none
  else
    match F.lookup w filesystem current.toEntry component with
    | none => none
    | some child =>
      match Text.copy maxPathLength current.path with
      | none => none
      | some path =>
        match appendComponent path maxPathLength component with
        | none => none
        | some path => some ⟨child, filesystem, path⟩

/-- `walk`: from the root of the mount along what the path has left. -/
def walk (mount : Mount Fs) (path : List UInt8) : Option (Node Fs) :=
  match F.root w mount.filesystem with
  | none => none
  | some root =>
    match Text.copy maxPathLength mount.path with
    | none => none
    | some start =>
      let remainder := path.drop mount.path.length
      eachWord isSeparator (walkStep F w mount.filesystem) remainder.length remainder
        ⟨root, mount.filesystem, start⟩

/-- `stat`. -/
def stat (mounts : List (Mount Fs)) (path : List UInt8) (base : Option (List UInt8)) :
    Option (Node Fs) :=
  match normalize path base maxPathLength with
  | none => none
  | some normalized =>
    match mountFor mounts normalized with
    | none => none
    | some mount => walk F w mount normalized

/-- `mount`: the table after it, `none` when it is refused. The first mount is the root; another
one needs a directory as its parent. -/
def mount (mounts : List (Mount Fs)) (path : List UInt8) (filesystem : Fs) :
    Option (List (Mount Fs)) :=
  if path.head? ≠ some slash then none
  else if mounts.length ≥ maxMounts then none
  else if mounts.length = 0 ∧ path ≠ [slash] then none
  else
    match normalize path none maxPathLength with
    | none => none
    | some normalized =>
      if mounts.any fun mount => mount.path == normalized then none
      else if mounts.length ≠ 0 ∧
          (stat F w mounts (removeLastComponent normalized) none).map (·.type) ≠
            some .directory then none
      else some (mounts ++ [⟨normalized, filesystem⟩])

/-- The entry of a mount point is taken by the last one of the table. -/
def removeMount (mounts : List (Mount Fs)) (index : ℕ) : List (Mount Fs) :=
  match mounts.getLast? with
  | none => mounts
  | some last => (mounts.set index last).dropLast

/-- `unmount`: the table after it, `none` when it is refused; `busy` says whether a file is open on
a file system. -/
def unmount (busy : Fs → Bool) (mounts : List (Mount Fs)) (path : List UInt8) :
    Option (List (Mount Fs)) :=
  match normalize path none maxPathLength with
  | none => none
  | some normalized =>
    match mounts.findIdx? fun mount => mount.path == normalized with
    | none => none
    | some index =>
      if (mounts[index]?.map fun mount => busy mount.filesystem) = some true then none
      else some (removeMount mounts index)

end Resolution

/-! ## The table -/

/-- The names of a mount point. -/
def Mount.names {Fs : Type} (mount : Mount Fs) : List (List UInt8) := words isSeparator mount.path

/-- A table of distinct canonical mount points. -/
structure Table {Fs : Type} (mounts : List (Mount Fs)) : Prop where
  canonical : ∀ mount ∈ mounts, Canonical mount.names
  path : ∀ mount ∈ mounts, mount.path = render mount.names
  fits : ∀ mount ∈ mounts, mount.path.length + 1 ≤ maxPathLength
  distinct : (mounts.map Mount.path).Nodup

/-- The longest mount point above a path. -/
structure Covers {Fs : Type} (mounts : List (Mount Fs)) (names : List (List UInt8))
    (mount : Mount Fs) : Prop where
  mem : mount ∈ mounts
  above : mount.names <+: names
  longest : ∀ other ∈ mounts, other.names <+: names → other.names.length ≤ mount.names.length

section Table

variable {W Fs : Type} {F : FileSystems W Fs} {w : W} {mounts mounts' : List (Mount Fs)}
  {names : List (List UInt8)} {mount mount' : Mount Fs}

theorem Table.mem_path_inj (h : Table mounts) (hmount : mount ∈ mounts) (hmount' : mount' ∈ mounts)
    (hpath : mount.path = mount'.path) : mount = mount' :=
  List.inj_on_of_nodup_map h.distinct hmount hmount' hpath

theorem Covers.unique (h : Table mounts) (hcovers : Covers mounts names mount)
    (hcovers' : Covers mounts names mount') : mount = mount' := by
  apply h.mem_path_inj hcovers.mem hcovers'.mem
  have hlength := Nat.le_antisymm (hcovers'.longest mount hcovers.mem hcovers.above)
    (hcovers.longest mount' hcovers'.mem hcovers'.above)
  have hnames : mount.names = mount'.names :=
    (List.prefix_of_prefix_length_le hcovers.above hcovers'.above
      (Nat.le_of_eq hlength)).eq_of_length
      hlength
  rw [h.path mount hcovers.mem, h.path mount' hcovers'.mem, hnames]

/-- Which mount point covers a path does not depend on the order of the table. -/
theorem Covers.congr (hsame : ∀ mount, mount ∈ mounts ↔ mount ∈ mounts')
    (h : Covers mounts names mount) : Covers mounts' names mount :=
  ⟨(hsame mount).mp h.mem, h.above, fun other hother => h.longest other ((hsame other).mpr hother)⟩

/-- The loop of `mount_for` takes the longest of the paths above. -/
theorem mountFor_eq_argmax (mounts : List (Mount Fs)) (path : List UInt8) :
    mountFor mounts path =
      (mounts.filter fun mount => pathStartsWith path mount.path).argmax
        fun mount => mount.path.length := by
  induction mounts using List.reverseRecOn with
  | nil => rfl
  | append_singleton mounts candidate ih =>
    rw [mountFor] at ih ⊢
    rw [List.foldl_append, List.foldl_cons, List.foldl_nil, ih, List.filter_append]
    cases hstarts : pathStartsWith path candidate.path with
    | false =>
      have hnone : [candidate].filter (fun mount => pathStartsWith path mount.path) = [] := by
        rw [List.filter_singleton, hstarts]
        rfl
      rw [hnone, List.append_nil]
      rfl
    | true =>
      have hone : [candidate].filter (fun mount => pathStartsWith path mount.path) =
          [candidate] := by
        rw [List.filter_singleton, hstarts]
        rfl
      rw [hone, List.argmax_concat]
      cases List.argmax (fun mount : Mount Fs => mount.path.length)
          (mounts.filter fun mount => pathStartsWith path mount.path) with
      | none => rfl
      | some best =>
        -- of two as long, the loop keeps the first
        by_cases hle : candidate.path.length ≤ best.path.length
        · simp only [Bool.not_true, Bool.false_eq_true, if_false, if_pos hle,
            if_neg (Nat.not_lt.mpr hle)]
        · simp only [Bool.not_true, Bool.false_eq_true, if_false, if_neg hle,
            if_pos (Nat.lt_of_not_le hle)]

theorem Table.pathStartsWith (h : Table mounts) (hnames : Canonical names)
    (hmount : mount ∈ mounts) :
    Vfs.pathStartsWith (render names) mount.path = true ↔ mount.names <+: names := by
  rw [h.path mount hmount]
  exact pathStartsWith_render hnames.plain (h.canonical mount hmount).plain

/-- **`mount_for`** finds the longest mount point above a path. -/
theorem mountFor_eq_some (h : Table mounts) (hnames : Canonical names) :
    mountFor mounts (render names) = some mount ↔ Covers mounts names mount := by
  rw [mountFor_eq_argmax]
  have hcovers {best : Mount Fs} (hbest : best ∈ List.argmax (fun mount => mount.path.length)
      (mounts.filter fun mount => Vfs.pathStartsWith (render names) mount.path)) :
      Covers mounts names best := by
    obtain ⟨hmem, hstarts⟩ := List.mem_filter.mp (List.argmax_mem hbest)
    have habove := (h.pathStartsWith hnames hmem).mp hstarts
    refine ⟨hmem, habove, fun other hother hotherAbove => ?_⟩
    have hin : other ∈ mounts.filter fun mount => Vfs.pathStartsWith (render names) mount.path :=
      List.mem_filter.mpr ⟨hother, (h.pathStartsWith hnames hother).mpr hotherAbove⟩
    have hle := List.le_of_mem_argmax hin hbest
    -- a longer list of names would have a longer path
    by_contra hlonger
    have hlt := length_render_lt (h.canonical other hother).plain
      (List.prefix_of_prefix_length_le habove hotherAbove (by omega)) (Nat.lt_of_not_le hlonger)
    rw [← h.path best hmem, ← h.path other hother] at hlt
    omega
  constructor
  · exact hcovers
  · intro hmount
    cases hbest : List.argmax (fun mount : Mount Fs => mount.path.length)
        (mounts.filter fun mount => Vfs.pathStartsWith (render names) mount.path) with
    | none =>
      have hmem : mount ∈ mounts.filter fun mount =>
          Vfs.pathStartsWith (render names) mount.path :=
        List.mem_filter.mpr ⟨hmount.mem, (h.pathStartsWith hnames hmount.mem).mpr hmount.above⟩
      rw [List.argmax_eq_none.mp hbest] at hmem
      cases hmem
    | some best => rw [(hcovers hbest).unique h hmount]

/-! ## Walking -/

/-- What is behind a list of names, from the root of a file system. -/
def walkNames (F : FileSystems W Fs) (w : W) (filesystem : Fs) (names : List (List UInt8)) :
    Option Entry :=
  (F.root w filesystem).bind fun root =>
    names.foldlM
      (fun current name =>
        if current.type = .directory then F.lookup w filesystem current name else none)
      root

/-- What the path has left behind the mount point. -/
theorem words_drop_render {above : List (List UInt8)} (hnames : Canonical names)
    (habove : above <+: names) :
    words isSeparator ((render names).drop (render above).length) = names.drop above.length := by
  obtain ⟨rest, rfl⟩ := habove
  rw [List.drop_left]
  have hrest : Canonical rest := fun name hname => hnames name (List.mem_append_right _ hname)
  cases above with
  | nil =>
    rw [List.nil_append] at hnames ⊢
    cases rest with
    | nil => rfl
    | cons name rest =>
      conv_rhs => rw [← words_flatMap hrest.plain, List.flatMap_cons, List.cons_append,
        words_cons_sep _ isSeparator_slash]
      rfl
  | cons name above =>
    rw [render_of_ne_nil (List.append_ne_nil_of_left_ne_nil (List.cons_ne_nil _ _) _),
      render_of_ne_nil (List.cons_ne_nil _ _), List.flatMap_append, List.drop_left,
      words_flatMap hrest.plain]

/-- The names are looked up one by one, and the path of the node grows with them. -/
theorem foldlM_walkStep (filesystem : Fs) (hnames : Canonical names)
    (hfits : (render names).length + 1 ≤ maxPathLength) {behind rest : List (List UInt8)}
    (hsplit : behind ++ rest = names) (entry : Entry) :
    rest.foldlM (walkStep F w filesystem) ⟨entry, filesystem, render behind⟩ =
      (rest.foldlM (fun current name =>
        if current.type = .directory then F.lookup w filesystem current name else none) entry).map
          fun entry => ⟨entry, filesystem, render names⟩ := by
  induction rest generalizing behind entry with
  | nil =>
    rw [List.append_nil] at hsplit
    rw [hsplit]
    rfl
  | cons name rest ih =>
    have hname : IsName name := hnames name (hsplit ▸ List.mem_append_right _ List.mem_cons_self)
    have hbehind : Canonical behind := hnames.above ⟨_, hsplit⟩
    have hnext : behind ++ [name] <+: names := ⟨rest, by rw [List.append_assoc]; exact hsplit⟩
    -- the path on the way is not longer than that of all names
    have hroom := length_render_le hnames.plain hnext
    have hhere := length_render_le (hnames.above hnext).plain (List.prefix_append behind [name])
    rw [List.foldlM_cons, List.foldlM_cons, walkStep,
      if_neg (Nat.not_lt.mpr (Nat.succ_le_succ hname.length))]
    by_cases hdirectory : entry.type = .directory
    · rw [if_neg (not_not.mpr hdirectory), if_pos hdirectory]
      cases F.lookup w filesystem entry name with
      | none => rfl
      | some child =>
        have hcopy : Text.copy maxPathLength (render behind) = some (render behind) :=
          if_neg (by omega)
        dsimp only
        rw [hcopy]
        dsimp only
        rw [appendComponent_render hbehind.plain, Text.copy, if_neg (by omega)]
        exact ih (by rw [List.append_assoc]; exact hsplit) child
    · rw [if_pos hdirectory, if_neg hdirectory]
      rfl

/-- **`walk`** looks up the names behind the mount point. -/
theorem walk_eq (h : Table mounts) (hmount : mount ∈ mounts) (hnames : Canonical names)
    (hfits : (render names).length + 1 ≤ maxPathLength) (habove : mount.names <+: names) :
    walk F w mount (render names) =
      (walkNames F w mount.filesystem (names.drop mount.names.length)).map
        fun entry => ⟨entry, mount.filesystem, render names⟩ := by
  rw [walk, walkNames]
  cases F.root w mount.filesystem with
  | none => rfl
  | some root =>
    have hroom := h.fits mount hmount
    dsimp only
    rw [Text.copy, if_neg (by omega)]
    dsimp only
    rw [eachWord_eq _ (Nat.le_refl _), h.path mount hmount, words_drop_render hnames habove]
    obtain ⟨rest, hsplit⟩ := habove
    have hdrop : names.drop mount.names.length = rest := by rw [← hsplit, List.drop_left]
    rw [hdrop]
    exact foldlM_walkStep mount.filesystem hnames hfits hsplit root

/-! ## Resolving -/

/-- **`stat`**: a path resolves when it normalizes and the names behind the longest mount point
above it are found. -/
theorem stat_eq_some (h : Table mounts) {base : Option (List (List UInt8))}
    (hbase : ∀ names ∈ base, Canonical names) (path : List UInt8) (node : Node Fs) :
    stat F w mounts path (base.map render) = some node ↔
      ∃ mount entry,
        normalize path (base.map render) maxPathLength =
          some (render (resolve path (base.getD []))) ∧
        Covers mounts (resolve path (base.getD [])) mount ∧
        walkNames F w mount.filesystem
          ((resolve path (base.getD [])).drop mount.names.length) = some entry ∧
        node = ⟨entry, mount.filesystem, render (resolve path (base.getD []))⟩ := by
  rw [stat]
  cases hnormalize : normalize path (base.map render) maxPathLength with
  | none =>
    dsimp only
    exact iff_of_false (fun h => nomatch h) fun ⟨_, _, h, _⟩ => nomatch h
  | some normalized =>
    obtain ⟨hnames, hfits, rfl⟩ := normalize_eq_some hbase hnormalize
    generalize resolve path (base.getD []) = names at hnames hfits
    dsimp only
    constructor
    · intro hstat
      cases hmount : mountFor mounts (render names) with
      | none =>
        rw [hmount] at hstat
        cases hstat
      | some mount =>
        have hcovers := (mountFor_eq_some h hnames).mp hmount
        rw [hmount] at hstat
        dsimp only at hstat
        rw [walk_eq h hcovers.mem hnames hfits hcovers.above] at hstat
        obtain ⟨entry, hwalk, hnode⟩ := Option.map_eq_some_iff.mp hstat
        exact ⟨mount, entry, rfl, hcovers, hwalk, hnode.symm⟩
    · rintro ⟨mount, entry, -, hcovers, hwalk, rfl⟩
      rw [(mountFor_eq_some h hnames).mpr hcovers]
      dsimp only
      rw [walk_eq h hcovers.mem hnames hfits hcovers.above, hwalk]
      rfl

/-- A canonical path resolves when the names behind the longest mount point above it are found. -/
theorem stat_render (h : Table mounts) (hnames : Canonical names)
    (hfits : (render names).length + 1 ≤ maxPathLength) (node : Node Fs) :
    stat F w mounts (render names) none = some node ↔
      ∃ mount entry, Covers mounts names mount ∧
        walkNames F w mount.filesystem (names.drop mount.names.length) = some entry ∧
        node = ⟨entry, mount.filesystem, render names⟩ := by
  have hstat := stat_eq_some (F := F) (w := w) h forall_none (render names) node
  rw [Option.map_none, Option.getD_none, resolve_render hnames.plain,
    normalize_render hnames hfits] at hstat
  rw [hstat]
  exact exists_congr fun mount => exists_congr fun entry => and_iff_right rfl

end Table

end ShirleysOS.Vfs
