import ShirleysOS.Vfs.Table

/-!
# Listing directories

`list` gives the entries of a directory's own file system first and then the mount points directly
inside it. A mount point over an existing entry is listed twice, and a child whose path does not
fit ends the listing early; where neither happens, the listing is what can be looked up.
-/

namespace ShirleysOS.Vfs

open Lib

section Listing

variable {W Fs : Type} (F : FileSystems W Fs) (w : W)

/-- Whether a mount point is directly inside a directory: one component is left behind it. -/
def isNested (directory : List UInt8) (candidate : Mount Fs) : Bool :=
  if candidate.path = directory then false
  else if !pathStartsWith candidate.path directory then false
  else
    let leaf := (candidate.path.drop directory.length).dropWhile isSeparator
    !leaf.any isSeparator && !leaf.isEmpty

/-- `nested_mount`: the mount point with this position among those directly inside. -/
def nestedMount (directory : List UInt8) : List (Mount Fs) → ℕ → Option (Mount Fs)
  | [], _ => none
  | candidate :: rest, position =>
    if !isNested directory candidate then nestedMount directory rest position
    else
      match position with
      | 0 => some candidate
      | position + 1 => nestedMount directory rest position

/-- `mount_as_child`: a mount point as an entry of its parent. -/
def mountAsChild (mount : Mount Fs) : Option (Node Fs) :=
  match F.root w mount.filesystem with
  | none => none
  | some root =>
    match Text.copy maxPathLength mount.path with
    | none => none
    | some path =>
      match Text.copy (maxNameLength + 1) (leafOf mount.path) with
      | none => none
      | some name =>
        some ⟨{ root with type := .directory, name := name }, mount.filesystem, path⟩

/-- The loop of `list` that counts the own entries; the directory has none at `own + fuel`. -/
def ownCount (directory : Node Fs) : ℕ → ℕ → ℕ
  | 0, own => own
  | fuel + 1, own =>
    if (F.list w directory.filesystem directory.toEntry own).isSome then
      ownCount directory fuel (own + 1)
    else own

/-- `list`. -/
def list (mounts : List (Mount Fs)) (directory : Node Fs) (position : ℕ) : Option (Node Fs) :=
  if directory.type ≠ .directory then none
  else
    match F.list w directory.filesystem directory.toEntry position with
    | some child =>
      match Text.copy maxPathLength directory.path with
      | none => none
      | some path =>
        match appendComponent path maxPathLength child.name with
        | none => none
        | some path => some ⟨child, directory.filesystem, path⟩
    | none =>
      let own := ownCount F w directory position 0
      if position < own then none
      else
        match nestedMount directory.path mounts (position - own) with
        | none => none
        | some nested => mountAsChild F w nested

end Listing

/-- Own listing and lookups agree in every directory of a file system: the entries are listed
without gaps, under distinct names that can stand in a path, and these are what is found. -/
def Agrees {W Fs : Type} (F : FileSystems W Fs) (w : W) : Prop :=
  ∀ filesystem entry, entry.type = NodeType.directory →
    ∃ children : List Entry,
      (∀ position, F.list w filesystem entry position = children[position]?) ∧
      (children.map Entry.name).Nodup ∧ (∀ child ∈ children, IsName child.name) ∧
      ∀ name child, F.lookup w filesystem entry name = some child ↔
        child ∈ children ∧ child.name = name

/-- The children of a directory can be listed: nothing is mounted over an own entry, their paths
fit, and the file systems mounted directly inside have a root. -/
structure Uncovered {W Fs : Type} (F : FileSystems W Fs) (w : W) (mounts : List (Mount Fs))
    (directory : Node Fs) : Prop where
  entry : ∀ position child,
    F.list w directory.filesystem directory.toEntry position = some child →
      (∀ mount ∈ mounts, mount.names ≠ words isSeparator directory.path ++ [child.name]) ∧
      (render (words isSeparator directory.path ++ [child.name])).length + 1 ≤ maxPathLength
  root : ∀ mount ∈ mounts, isNested directory.path mount = true →
    (F.root w mount.filesystem).isSome

variable {name : List UInt8} {directory : Entry}

section Lemmas

variable {W Fs : Type} {F : FileSystems W Fs} {w : W} {mounts : List (Mount Fs)}
  {names : List (List UInt8)} {mount : Mount Fs}

/-- What is left of a path below a directory, without the separators in front. -/
theorem leaf_below {rest : List (List UInt8)} (h : Canonical (names ++ name :: rest)) :
    ((render (names ++ name :: rest)).drop (render names).length).dropWhile isSeparator =
      name ++ rest.flatMap (slash :: ·) := by
  have hname : IsName name := h name (List.mem_append_right _ List.mem_cons_self)
  have hfirst : (name ++ rest.flatMap (slash :: ·)).dropWhile isSeparator =
      name ++ rest.flatMap (slash :: ·) := by
    cases name with
    | nil => exact absurd rfl hname.ne_nil
    | cons c name =>
      rw [List.cons_append, List.dropWhile_cons_of_neg]
      rw [hname.separator c List.mem_cons_self]
      exact Bool.false_ne_true
  cases names with
  | nil => exact hfirst
  | cons first names =>
    rw [render_of_ne_nil (List.append_ne_nil_of_left_ne_nil (List.cons_ne_nil _ _) _),
      render_of_ne_nil (List.cons_ne_nil _ _), List.flatMap_append, List.drop_left,
      List.flatMap_cons, List.cons_append, List.dropWhile_cons_of_pos isSeparator_slash]
    exact hfirst

/-- **The mount points directly inside a directory** have one name more. -/
theorem isNested_iff (h : Table mounts) (hmount : mount ∈ mounts) (hnames : Canonical names) :
    isNested (render names) mount = true ↔ ∃ name, mount.names = names ++ [name] := by
  have hcanonical := h.canonical mount hmount
  rw [isNested, h.path mount hmount]
  constructor
  · intro hnested
    split at hnested
    · cases hnested
    rename_i hne
    split at hnested
    · cases hnested
    rename_i hstarts
    rw [Bool.not_eq_true', Bool.not_eq_false, pathStartsWith_render hcanonical.plain hnames.plain]
      at hstarts
    obtain ⟨rest, hrest⟩ := hstarts
    -- with two names more there is a separator between them
    cases rest with
    | nil =>
      rw [List.append_nil] at hrest
      exact absurd (by rw [hrest]) hne
    | cons name rest =>
      rw [← hrest] at hnested hcanonical
      rw [leaf_below hcanonical, Bool.and_eq_true, Bool.not_eq_true', List.any_eq_false] at hnested
      cases rest with
      | nil => exact ⟨name, hrest.symm⟩
      | cons next rest =>
        refine absurd isSeparator_slash (hnested.1 slash ?_)
        exact List.mem_append_right _ (List.mem_append_left _ List.mem_cons_self)
  · rintro ⟨name, hname⟩
    rw [hname] at hcanonical ⊢
    have hne : render (names ++ [name]) ≠ render names := fun heq => by
      have := congrArg List.length (render_inj hcanonical.plain hnames.plain heq)
      simp at this
    have hlast : IsName name :=
      hcanonical name (List.mem_append_right _ (List.mem_singleton_self name))
    rw [if_neg hne, (pathStartsWith_render hcanonical.plain hnames.plain).mpr
      (List.prefix_append _ _), Bool.not_true, if_neg Bool.false_ne_true]
    dsimp only
    rw [leaf_below hcanonical, List.flatMap_nil, List.append_nil, Bool.and_eq_true,
      Bool.not_eq_true', List.any_eq_false, Bool.not_eq_true']
    refine ⟨fun c hc => by rw [hlast.separator c hc]; exact Bool.false_ne_true, ?_⟩
    rw [List.isEmpty_eq_false_iff]
    exact hlast.ne_nil

theorem nestedMount_eq (directory : List UInt8) (mounts : List (Mount Fs)) (position : ℕ) :
    nestedMount directory mounts position = (mounts.filter (isNested directory))[position]? := by
  induction mounts generalizing position with
  | nil => rfl
  | cons candidate mounts ih =>
    unfold nestedMount
    cases hnested : isNested directory candidate with
    | false =>
      rw [List.filter_cons_of_neg (by rw [hnested]; exact Bool.false_ne_true), Bool.not_false,
        if_pos rfl, ih]
    | true =>
      rw [List.filter_cons_of_pos hnested, Bool.not_true, if_neg Bool.false_ne_true]
      cases position with
      | zero => rfl
      | succ position => exact ih position

theorem leafOf_render (hname : IsName name) : leafOf (render (names ++ [name])) = name := by
  rw [leafOf, render_append_singleton, List.reverse_append, List.reverse_cons, List.append_assoc,
    List.singleton_append, List.takeWhile_append_of_pos]
  · rw [List.takeWhile_cons_of_neg (by rw [isSeparator_slash]; exact Bool.false_ne_true),
      List.append_nil, List.reverse_reverse]
  · intro c hc
    rw [hname.separator c (List.mem_reverse.mp hc)]
    rfl

/-- The entry of a mount point in its parent. -/
def childOf (F : FileSystems W Fs) (w : W) (mount : Mount Fs) : Node Fs :=
  ⟨{ (F.root w mount.filesystem).getD ⟨0, .directory, 0, []⟩ with
      type := .directory, name := leafOf mount.path }, mount.filesystem, mount.path⟩

theorem mountAsChild_eq (h : Table mounts) (hmount : mount ∈ mounts)
    (hname : mount.names = names ++ [name]) (hroot : (F.root w mount.filesystem).isSome) :
    mountAsChild F w mount = some (childOf F w mount) ∧ (childOf F w mount).name = name := by
  have hcanonical := h.canonical mount hmount
  rw [hname] at hcanonical
  have hlast : IsName name :=
    hcanonical name (List.mem_append_right _ (List.mem_singleton_self name))
  have hleaf : leafOf mount.path = name := by
    rw [h.path mount hmount, hname, leafOf_render hlast]
  refine ⟨?_, hleaf⟩
  obtain ⟨root, hroot⟩ := Option.isSome_iff_exists.mp hroot
  have hpath : Text.copy maxPathLength mount.path = some mount.path :=
    if_neg (Nat.not_lt.mpr (h.fits mount hmount))
  have hcopy : Text.copy (maxNameLength + 1) name = some name :=
    if_neg (Nat.not_lt.mpr (Nat.succ_le_succ hlast.length))
  rw [mountAsChild, childOf, hroot, hpath, hleaf, hcopy]
  rfl

theorem ownCount_eq {directory : Node Fs} {children : List Entry}
    (hlist : ∀ position,
      F.list w directory.filesystem directory.toEntry position = children[position]?)
    {fuel own : ℕ} (hown : own ≤ children.length) (hfuel : children.length ≤ own + fuel) :
    ownCount F w directory fuel own = children.length := by
  induction fuel generalizing own with
  | zero => exact Nat.le_antisymm hown hfuel
  | succ fuel ih =>
    rw [ownCount, hlist]
    by_cases hmore : own < children.length
    · rw [List.getElem?_eq_getElem hmore, Option.isSome_some, if_pos rfl]
      exact ih hmore (by omega)
    · rw [List.getElem?_eq_none (Nat.le_of_not_lt hmore), Option.isSome_none,
        if_neg Bool.false_ne_true]
      omega

/-- **The listing of a directory**: its own entries, and then the mount points directly inside. -/
theorem list_eq (h : Table mounts) (hnames : Canonical names)
    (hfits : (render names).length + 1 ≤ maxPathLength) {directory : Node Fs}
    (hpath : directory.path = render names) (htype : directory.type = .directory)
    (huncovered : Uncovered F w mounts directory) {children : List Entry}
    (hlist : ∀ position,
      F.list w directory.filesystem directory.toEntry position = children[position]?)
    (position : ℕ) :
    list F w mounts directory position =
      (children.map (fun child : Entry =>
          (⟨child, directory.filesystem, render (names ++ [child.name])⟩ : Node Fs)) ++
        (mounts.filter (isNested directory.path)).map (childOf F w))[position]? := by
  have hwords : words isSeparator directory.path = names := by rw [hpath, words_render hnames.plain]
  rw [list, if_neg (not_not.mpr htype), hlist]
  -- the positions behind the directory's own entries are those of the mounts
  rcases Nat.lt_or_ge position children.length with hlt | hge
  · have hchild := hlist position
    rw [List.getElem?_eq_getElem hlt] at hchild ⊢
    obtain ⟨-, hroom⟩ := huncovered.entry position _ hchild
    rw [hwords] at hroom
    have hcopy : Text.copy maxPathLength (render names) = some (render names) :=
      if_neg (by omega)
    have hcopy' : Text.copy maxPathLength (render (names ++ [children[position].name])) =
        some (render (names ++ [children[position].name])) := if_neg (by omega)
    dsimp only
    rw [hpath, hcopy]
    dsimp only
    rw [appendComponent_render hnames.plain, hcopy',
      List.getElem?_append_left (by rw [List.length_map]; exact hlt), List.getElem?_map,
      List.getElem?_eq_getElem hlt]
    rfl
  · rw [List.getElem?_eq_none hge, List.getElem?_append_right (by rw [List.length_map]; exact hge),
      List.length_map]
    dsimp only
    rw [ownCount_eq hlist (Nat.zero_le _) (by omega), if_neg (by omega), nestedMount_eq,
      List.getElem?_map]
    cases hnested : (mounts.filter (isNested directory.path))[position - children.length]? with
    | none => rfl
    | some nested =>
      obtain ⟨hmem, hinside⟩ := List.mem_filter.mp (List.mem_of_getElem? hnested)
      have hroot := huncovered.root nested hmem hinside
      rw [hpath, isNested_iff h hmem hnames] at hinside
      obtain ⟨name, hname⟩ := hinside
      exact (mountAsChild_eq h hmem hname hroot).1

/-! ## Looking up children -/

theorem covers_self (hmount : mount ∈ mounts) : Covers mounts mount.names mount :=
  ⟨hmount, List.prefix_refl _, fun _ _ habove => habove.length_le⟩

/-- What covers a directory covers a child at which nothing is mounted. -/
theorem Covers.child (h : Covers mounts names mount)
    (hfree : ∀ other ∈ mounts, other.names ≠ names ++ [name]) :
    Covers mounts (names ++ [name]) mount := by
  refine ⟨h.mem, h.above.trans (List.prefix_append _ _), fun other hother habove => ?_⟩
  rcases List.prefix_concat_iff.mp habove with heq | habove
  · exact absurd heq (hfree other hother)
  · exact h.longest other hother habove

theorem walkNames_append (filesystem : Fs) (rest : List (List UInt8)) (name : List UInt8) :
    walkNames F w filesystem (rest ++ [name]) =
      (walkNames F w filesystem rest).bind fun entry =>
        if entry.type = .directory then F.lookup w filesystem entry name else none := by
  rw [walkNames, walkNames]
  cases F.root w filesystem with
  | none => rfl
  | some root =>
    rw [Option.bind_some, Option.bind_some, List.foldlM_append]
    refine congrArg _ (funext fun entry => ?_)
    rw [List.foldlM_cons]
    exact bind_pure _

/-- A directory that was found at a path. -/
structure Located (F : FileSystems W Fs) (w : W) (mounts : List (Mount Fs))
    (names : List (List UInt8)) (mount : Mount Fs) (directory : Entry) : Prop where
  canonical : Canonical names
  fits : (render names).length + 1 ≤ maxPathLength
  covers : Covers mounts names mount
  walk : walkNames F w mount.filesystem (names.drop mount.names.length) = some directory
  type : directory.type = .directory

/-- What is found behind a directory at which nothing is mounted. -/
theorem Located.walkNames_child (h : Located F w mounts names mount directory) (name : List UInt8) :
    walkNames F w mount.filesystem ((names ++ [name]).drop mount.names.length) =
      F.lookup w mount.filesystem directory name := by
  rw [List.drop_append_of_le_length h.covers.above.length_le, walkNames_append, h.walk,
    Option.bind_some, if_pos h.type]

/-- A child at which nothing is mounted is found at its path. -/
theorem Located.stat_child {child : Entry} (htable : Table mounts)
    (h : Located F w mounts names mount directory) (hname : IsName child.name)
    (hfree : ∀ other ∈ mounts, other.names ≠ names ++ [child.name])
    (hroom : (render (names ++ [child.name])).length + 1 ≤ maxPathLength)
    (hlookup : F.lookup w mount.filesystem directory child.name = some child) :
    stat F w mounts (render (names ++ [child.name])) none =
      some ⟨child, mount.filesystem, render (names ++ [child.name])⟩ := by
  refine (stat_render htable (h.canonical.append hname) hroom _).mpr
    ⟨mount, child, h.covers.child hfree, ?_, rfl⟩
  rw [h.walkNames_child]
  exact hlookup

theorem stat_mount (htable : Table mounts) (hmount : mount ∈ mounts) {root : Entry}
    (hroot : F.root w mount.filesystem = some root) :
    stat F w mounts mount.path none = some ⟨root, mount.filesystem, mount.path⟩ := by
  have hroom := htable.fits mount hmount
  rw [htable.path mount hmount] at hroom ⊢
  refine (stat_render htable (htable.canonical mount hmount) hroom _).mpr
    ⟨mount, root, covers_self hmount, ?_, rfl⟩
  rw [List.drop_length, walkNames, hroot]
  rfl

/-- A directory's path with a name behind it means the child. -/
theorem resolve_child (hnames : Canonical names) (hname : IsName name) :
    resolve (render names ++ slash :: name) [] = names ++ [name] := by
  have hcanonical := hnames.append hname
  have hwords : words isSeparator (render names ++ slash :: name) =
      words isSeparator (render (names ++ [name])) := by
    rw [words_append_cons _ _ isSeparator_slash, words_render hnames.plain,
      words_word hname.ne_nil hname.separator, words_render hcanonical.plain]
  have hhead : (render names ++ slash :: name).head? = (render (names ++ [name])).head? := by
    rw [head_render, List.head?_append, head_render]
    rfl
  rw [← resolve_render hcanonical.plain [], resolve, resolve, hwords, hhead]

/-- A name that is found behind a directory is that of a mount point or of an own entry. -/
theorem Located.found (htable : Table mounts) (h : Located F w mounts names mount directory)
    (hname : IsName name) (hfound : (stat F w mounts (render names ++ slash :: name) none).isSome) :
    (∃ other ∈ mounts, other.names = names ++ [name]) ∨
      ∃ child, F.lookup w mount.filesystem directory name = some child := by
  by_cases hmounted : ∃ other ∈ mounts, other.names = names ++ [name]
  · exact Or.inl hmounted
  · right
    have hfree : ∀ other ∈ mounts, other.names ≠ names ++ [name] := fun other hother heq =>
      hmounted ⟨other, hother, heq⟩
    obtain ⟨node, hnode⟩ := Option.isSome_iff_exists.mp hfound
    obtain ⟨cover, child, -, hcover, hwalk, -⟩ := (stat_eq_some htable forall_none _ _).mp hnode
    rw [Option.getD_none, resolve_child h.canonical hname] at hcover hwalk
    obtain rfl := hcover.unique htable (h.covers.child hfree)
    rw [h.walkNames_child] at hwalk
    exact ⟨child, hwalk⟩

end Lemmas

section Agreement

variable {W Fs : Type} [DecidableEq Fs] {F : FileSystems W Fs}

/-- **Listing agrees with lookup.** After any calls, for a directory that `stat` returns, over file
systems whose own listings and lookups agree: when nothing is mounted over an own entry, the
children's paths fit and the file systems mounted inside have a root, `list` enumerates children
with distinct names, each of which is found at its path, and every name that is found behind the
directory is among them. -/
theorem list_agrees (w₀ : W) (calls : List (Call Fs)) (w : W) (hagrees : Agrees F w)
    {path : List UInt8} {base : Option (List (List UInt8))}
    (hbase : ∀ names ∈ base, Canonical names) {directory : Node Fs}
    (hstat : stat F w (run F calls (initial w₀)).mounts path (base.map render) = some directory)
    (htype : directory.type = .directory)
    (huncovered : Uncovered F w (run F calls (initial w₀)).mounts directory) :
    let mounts := (run F calls (initial w₀)).mounts
    ∃ children : List (Node Fs),
      (∀ position, list F w mounts directory position = children[position]?) ∧
      (children.map fun child => child.name).Nodup ∧
      (∀ child ∈ children, ∃ node, stat F w mounts child.path none = some node ∧
        node.filesystem = child.filesystem ∧ node.id = child.id) ∧
      ∀ name, IsName name → (stat F w mounts (directory.path ++ slash :: name) none).isSome →
        name ∈ children.map fun child => child.name := by
  intro mounts
  have h : Table mounts := run_table table_nil calls
  -- where the directory is, and what its file system says
  obtain ⟨mount, entry, hnormalize, hcovers, hwalk, rfl⟩ := (stat_eq_some h hbase path _).mp hstat
  obtain ⟨hnames, hfits, -⟩ := normalize_eq_some hbase hnormalize
  generalize resolve path (base.getD []) = names at *
  have hlocated : Located F w mounts names mount entry := ⟨hnames, hfits, hcovers, hwalk, htype⟩
  obtain ⟨children, hlist, hdistinct, hvalid, hlookup⟩ := hagrees mount.filesystem entry htype
  -- an own entry: nothing is mounted over it, and its path fits
  have hown : ∀ child ∈ children, (∀ other ∈ mounts, other.names ≠ names ++ [child.name]) ∧
      (render (names ++ [child.name])).length + 1 ≤ maxPathLength := by
    intro child hchild
    obtain ⟨position, hposition⟩ := List.getElem?_of_mem hchild
    have hentry := huncovered.entry position child ((hlist position).trans hposition)
    dsimp only at hentry
    rw [words_render hnames.plain] at hentry
    exact hentry
  -- a mount point directly inside: its name, and that it has a root
  have hinside : ∀ nested ∈ mounts.filter (isNested (render names)),
      nested ∈ mounts ∧ (F.root w nested.filesystem).isSome ∧
        nested.names = names ++ [(childOf F w nested).name] := by
    intro nested hnested
    obtain ⟨hmem, hnested⟩ := List.mem_filter.mp hnested
    have hroot := huncovered.root nested hmem hnested
    obtain ⟨name, hname⟩ := (isNested_iff h hmem hnames).mp hnested
    refine ⟨hmem, hroot, ?_⟩
    rw [(mountAsChild_eq h hmem hname hroot).2, hname]
  refine ⟨_, list_eq h hnames hfits rfl htype huncovered hlist, ?_, ?_, ?_⟩
  · rw [List.map_append, List.map_map, List.map_map, List.nodup_append']
    refine ⟨hdistinct, ?_, ?_⟩
    · -- two mount points with one name inside a directory are one
      refine List.Nodup.map_on ?_ ((List.Nodup.of_map _ h.distinct).filter _)
      intro nested hnested other hother hsame
      obtain ⟨hmem, -, hname⟩ := hinside nested hnested
      obtain ⟨hmem', -, hname'⟩ := hinside other hother
      apply h.mem_path_inj hmem hmem'
      rw [h.path nested hmem, h.path other hmem', hname, hname']
      exact congrArg (fun name => render (names ++ [name])) hsame
    · intro name hname hname'
      obtain ⟨child, hchild, rfl⟩ := List.mem_map.mp hname
      obtain ⟨nested, hnested, hsame⟩ := List.mem_map.mp hname'
      obtain ⟨hmem, -, hnames'⟩ := hinside nested hnested
      refine (hown child hchild).1 nested hmem (hnames'.trans ?_)
      exact congrArg (fun name => names ++ [name]) hsame
  · intro child hchild
    rcases List.mem_append.mp hchild with hchild | hchild
    · obtain ⟨own, hmem, rfl⟩ := List.mem_map.mp hchild
      obtain ⟨hfree, hroom⟩ := hown own hmem
      exact ⟨_, hlocated.stat_child h (hvalid own hmem) hfree hroom
        ((hlookup own.name own).mpr ⟨hmem, rfl⟩), rfl, rfl⟩
    · obtain ⟨nested, hnested, rfl⟩ := List.mem_map.mp hchild
      obtain ⟨hmem, hroot, -⟩ := hinside nested hnested
      obtain ⟨root, hroot⟩ := Option.isSome_iff_exists.mp hroot
      refine ⟨_, stat_mount h hmem hroot, rfl, ?_⟩
      rw [childOf, hroot]
      rfl
  · intro name hname hfound
    rw [List.map_append, List.mem_append, List.map_map, List.map_map, List.mem_map, List.mem_map]
    rcases hlocated.found h hname hfound with ⟨other, hother, hnames'⟩ | ⟨child, hchild⟩
    · have hnested : other ∈ mounts.filter (isNested (render names)) :=
        List.mem_filter.mpr ⟨hother, (isNested_iff h hother hnames).mpr ⟨name, hnames'⟩⟩
      obtain ⟨-, -, hlast⟩ := hinside other hnested
      rw [hnames'] at hlast
      exact Or.inr ⟨other, hnested, (List.singleton_inj.mp (List.append_cancel_left hlast)).symm⟩
    · obtain ⟨hmem, hsame⟩ := (hlookup name child).mp hchild
      exact Or.inl ⟨child, hmem, hsame⟩

end Agreement

/-! ## A mount point over an entry -/

/-- Two file systems: the root of the first has the directory `a`, the second is empty. -/
def coveredFileSystems : FileSystems Unit Bool where
  root _ _ := some ⟨0, .directory, 0, []⟩
  lookup _ filesystem entry name :=
    if filesystem = false ∧ entry.id = 0 ∧ name = [0x61] then some ⟨1, .directory, 0, [0x61]⟩
    else none
  list _ filesystem entry position :=
    if filesystem = false ∧ entry.id = 0 ∧ position = 0 then some ⟨1, .directory, 0, [0x61]⟩
    else none
  writable _ _ _ := false
  create _ _ _ _ _ := (.error .unsupported, ())
  truncate _ _ _ _ := (.unsupported, ())
  read _ _ _ _ _ := (⟨0, .none⟩, [], ())

theorem coveredFileSystems_agrees : Agrees coveredFileSystems () := by
  intro filesystem entry _
  by_cases hroot : filesystem = false ∧ entry.id = 0
  · refine ⟨[⟨1, .directory, 0, [0x61]⟩], fun position => ?_, by decide, ?_, fun name child => ?_⟩
    · cases position with
      | zero => exact if_pos ⟨hroot.1, hroot.2, rfl⟩
      | succ position => exact if_neg fun h => nomatch h.2.2
    · intro child hchild
      obtain rfl := List.mem_singleton.mp hchild
      exact isName_singleton rfl (by decide)
    · rw [List.mem_singleton]
      by_cases hname : name = [0x61]
      · rw [show coveredFileSystems.lookup () filesystem entry name =
          some ⟨1, .directory, 0, [0x61]⟩ from if_pos ⟨hroot.1, hroot.2, hname⟩]
        constructor
        · intro h
          obtain rfl := Option.some.inj h
          exact ⟨rfl, hname.symm⟩
        · rintro ⟨rfl, -⟩
          rfl
      · rw [show coveredFileSystems.lookup () filesystem entry name = none from
          if_neg fun h => hname h.2.2]
        constructor
        · exact fun h => nomatch h
        · rintro ⟨rfl, hsame⟩
          exact absurd hsame.symm hname
  · refine ⟨[], fun position => if_neg fun h => hroot ⟨h.1, h.2.1⟩, List.nodup_nil,
      fun child hchild => absurd hchild List.not_mem_nil, fun name child => ?_⟩
    rw [show coveredFileSystems.lookup () filesystem entry name = none from
      if_neg fun h => hroot ⟨h.1, h.2.1⟩]
    exact iff_of_false (fun h => nomatch h) fun h => absurd h.1 List.not_mem_nil

/-- The root directory of the first file system. -/
def coveredRoot : Node Bool := ⟨⟨0, .directory, 0, []⟩, false, [slash]⟩

/-- The second file system is mounted beside the entry of the first. -/
theorem list_agrees_beside :
    let mounts : List (Mount Bool) := [⟨[slash], false⟩, ⟨[slash, 0x62], true⟩]
    ∃ children : List (Node Bool),
      (∀ position, list coveredFileSystems () mounts coveredRoot position = children[position]?) ∧
      (children.map fun child => child.name).Nodup ∧
      (∀ child ∈ children, ∃ node, stat coveredFileSystems () mounts child.path none = some node ∧
        node.filesystem = child.filesystem ∧ node.id = child.id) ∧
      ∀ name, IsName name →
        (stat coveredFileSystems () mounts (coveredRoot.path ++ slash :: name) none).isSome →
          name ∈ children.map fun child => child.name := by
  have hstat : stat coveredFileSystems () (run coveredFileSystems
      [.mount [slash] false, .mount [slash, 0x62] true] (initial ())).mounts [slash]
      (Option.map render none) = some coveredRoot := by decide
  refine list_agrees () [.mount [slash] false, .mount [slash, 0x62] true] ()
    coveredFileSystems_agrees forall_none hstat rfl ⟨fun position child hchild => ?_, by decide⟩
  have hsame : child.name = [0x61] := by
    simp only [coveredFileSystems] at hchild
    split at hchild
    · rw [← Option.some.inj hchild]
    · cases hchild
  rw [hsame]
  exact ⟨by decide, by decide⟩

/-- A mount point over an entry is listed twice. -/
theorem list_covered :
    Agrees coveredFileSystems () ∧
      let mounts := (run coveredFileSystems [.mount [slash] false, .mount pathA true]
        (initial ())).mounts
      stat coveredFileSystems () mounts [slash] none = some coveredRoot ∧
        (list coveredFileSystems () mounts coveredRoot 0).map (fun child => child.name) =
          some [0x61] ∧
        (list coveredFileSystems () mounts coveredRoot 1).map (fun child => child.name) =
          some [0x61] :=
  ⟨coveredFileSystems_agrees, by decide⟩

end ShirleysOS.Vfs
