import Mathlib.Data.Fin.Basic
import Mathlib.Data.List.FinRange
import Mathlib.Logic.Function.Basic
import ShirleysOS.Vfs.Mounts

/-!
# Open files

A descriptor is an index of a table of open files. `open` resolves the path, or creates the file,
and takes the first free descriptor; `read_file` opens a path, reads until the end of the file or
of its buffer, and closes it again. Source: `kernel/fs/vfs.cpp`.
-/

namespace ShirleysOS.Vfs

/-- `OpenFlags`. -/
structure OpenFlags where
  read : Bool
  write : Bool
  create : Bool
  truncate : Bool
deriving DecidableEq, Repr

/-- The default: reading only. -/
def OpenFlags.readOnly : OpenFlags := ⟨true, false, false, false⟩

/-- `OpenFile`, when it is used. -/
structure OpenFile (Fs : Type) where
  node : Node Fs
  position : ℕ
  flags : OpenFlags
deriving DecidableEq, Repr

abbrev maxOpenFiles : ℕ := 16

/-- The mount table and the table of open files, with the state of the file systems. -/
structure State (W Fs : Type) where
  mounts : List (Mount Fs)
  files : Fin maxOpenFiles → Option (OpenFile Fs)
  world : W

/-- `initialize`. -/
def initial {W Fs : Type} (w : W) : State W Fs := ⟨[], fun _ => none, w⟩

/-! ## Errors of `open` -/

def errorNotFound : ℤ := -1

def errorIsDirectory : ℤ := -2

def errorReadOnly : ℤ := -3

def errorNoDescriptors : ℤ := -4

def errorInvalid : ℤ := -5

def errorNoSpace : ℤ := -6

/-- `open_error`. -/
def openError : Storage.Error → ℤ
  | .notFound => errorNotFound
  | .readOnly => errorReadOnly
  | .noSpace => errorNoSpace
  | .unsupported => errorReadOnly
  | _ => errorInvalid

section Operations

variable {W Fs : Type} (F : FileSystems W Fs)

/-! ## Opening and closing -/

/-- What stands behind the last separator. -/
def leafOf (normalized : List UInt8) : List UInt8 :=
  (normalized.reverse.takeWhile fun c => !isSeparator c).reverse

/-- `parent_of`: the normalized path, the directory above it and its last name. -/
def parentOf (s : State W Fs) (path : List UInt8) (base : Option (List UInt8)) :
    Except Storage.Error (List UInt8 × Node Fs × List UInt8) :=
  match normalize path base maxPathLength with
  | none => .error .invalidArgument
  | some normalized =>
    if normalized = [slash] then .error .invalidArgument
    else
      match Text.copy (maxNameLength + 1) (leafOf normalized) with
      | none => .error .invalidArgument
      | some leaf =>
        match stat F s.world s.mounts (removeLastComponent normalized) none with
        | none => .error .notFound
        | some parent =>
          if parent.type ≠ .directory then .error .notFound
          else .ok (normalized, parent, leaf)

/-- The node that `open` opens: the one at the path, or a new file. -/
def openNode (s : State W Fs) (path : List UInt8) (flags : OpenFlags)
    (base : Option (List UInt8)) : Except ℤ (Node Fs) × W :=
  match stat F s.world s.mounts path base with
  | some node => (.ok node, s.world)
  | none =>
    if !flags.create then (.error errorNotFound, s.world)
    else
      match parentOf F s path base with
      | .error error => (.error (openError error), s.world)
      | .ok (normalized, parent, leaf) =>
        if !F.writable s.world parent.filesystem parent.toEntry then
          (.error errorReadOnly, s.world)
        else
          match F.create s.world parent.filesystem parent.toEntry leaf .file with
          | (.error error, w) => (.error (openError error), w)
          | (.ok entry, w) => (.ok ⟨entry, parent.filesystem, normalized⟩, w)

/-- The first descriptor that is not used. -/
def freeDescriptor (files : Fin maxOpenFiles → Option (OpenFile Fs)) : Option (Fin maxOpenFiles) :=
  (List.finRange maxOpenFiles).find? fun index => (files index).isNone

/-- The end of `open`: the node takes a descriptor, when there is one. -/
def assign (s : State W Fs) (node : Node Fs) (flags : OpenFlags) : ℤ × State W Fs :=
  match freeDescriptor s.files with
  | none => (errorNoDescriptors, s)
  | some index =>
    (index.val, { s with files := Function.update s.files index (some ⟨node, 0, flags⟩) })

/-- `open`: a descriptor, or an error below 0. -/
def openFile (s : State W Fs) (path : List UInt8) (flags : OpenFlags)
    (base : Option (List UInt8)) : ℤ × State W Fs :=
  match openNode F s path flags base with
  | (.error error, w) => (error, { s with world := w })
  | (.ok node, w) =>
    if node.type = .directory then (errorIsDirectory, { s with world := w })
    else if flags.write && !F.writable w node.filesystem node.toEntry then
      (errorReadOnly, { s with world := w })
    else if flags.write && flags.truncate && decide (node.size ≠ 0) then
      match F.truncate w node.filesystem node.toEntry 0 with
      | (.none, w) => assign { s with world := w } { node with size := 0 } flags
      | (error, w) => (openError error, { s with world := w })
    else assign { s with world := w } node flags

/-- `file_of`: the index of a descriptor that is used. -/
def fileOf (files : Fin maxOpenFiles → Option (OpenFile Fs)) (descriptor : ℤ) :
    Option (Fin maxOpenFiles × OpenFile Fs) :=
  if h : 0 ≤ descriptor ∧ descriptor.toNat < maxOpenFiles then
    (files ⟨descriptor.toNat, h.2⟩).map fun file => (⟨descriptor.toNat, h.2⟩, file)
  else none

/-- `close`. -/
def close (s : State W Fs) (descriptor : ℤ) : Bool × State W Fs :=
  match fileOf s.files descriptor with
  | none => (false, s)
  | some (index, _) => (true, { s with files := Function.update s.files index none })

/-! ## Reading -/

/-- `read`: the outcome, and the bytes that were put into the buffer. -/
def read (s : State W Fs) (descriptor : ℤ) (length : ℕ) :
    Storage.Result × List UInt8 × State W Fs :=
  match fileOf s.files descriptor with
  | none => (⟨0, .invalidArgument⟩, [], s)
  | some (index, file) =>
    if !file.flags.read then (⟨0, .unsupported⟩, [], s)
    else
      match F.read s.world file.node.filesystem file.node.toEntry file.position length with
      | (result, bytes, w) =>
        if result.ok then
          (result, bytes,
            { s with
              files := Function.update s.files index
                (some { file with position := file.position + result.transferred })
              world := w })
        else (result, bytes, { s with world := w })

/-- The loop of `read_file`, with what is in the buffer; `total` is its length. -/
def readLoop (descriptor : ℤ) (capacity : ℕ) :
    ℕ → List UInt8 → State W Fs → Option (List UInt8 × State W Fs)
  | fuel, buffer, s =>
    if buffer.length < capacity then
      match fuel with
      | 0 => none
      | fuel + 1 =>
        match read F s descriptor (capacity - buffer.length) with
        | (result, bytes, s) =>
          if !result.ok || result.transferred == 0 then some (buffer, s)
          else readLoop descriptor capacity fuel (buffer ++ bytes.take result.transferred) s
    else some (buffer, s)

/-- `read_file`: what it returns, and what it leaves at the start of the buffer. A full buffer is
not a success when there is more to read. -/
def readFile (s : State W Fs) (path : List UInt8) (capacity : ℕ) :
    Option (ℕ × List UInt8 × State W Fs) :=
  if capacity = 0 then some (0, [], s)
  else
    match openFile F s path .readOnly none with
    | (descriptor, s) =>
      if descriptor < 0 then some (0, [], s)
      else
        match readLoop F descriptor capacity capacity [] s with
        | none => none
        | some (buffer, s) =>
          if buffer.length = capacity then
            match read F s descriptor 1 with
            | (more, _, s) =>
              some (if more.ok && more.transferred != 0 then 0 else buffer.length, buffer,
                (close s descriptor).2)
          else some (buffer.length, buffer, (close s descriptor).2)

end Operations

/-! ## Nothing here touches the mounts -/

section Mounts

variable {W Fs : Type} {F : FileSystems W Fs}

theorem assign_mounts (s : State W Fs) (node : Node Fs) (flags : OpenFlags) :
    (assign s node flags).2.mounts = s.mounts := by
  rw [assign]
  split <;> rfl

theorem openFile_mounts (s : State W Fs) (path : List UInt8) (flags : OpenFlags)
    (base : Option (List UInt8)) : (openFile F s path flags base).2.mounts = s.mounts := by
  rw [openFile]
  split
  · rfl
  split
  · rfl
  split
  · rfl
  split
  · split
    · exact assign_mounts _ _ _
    · rfl
  · exact assign_mounts _ _ _

theorem close_mounts (s : State W Fs) (descriptor : ℤ) :
    (close s descriptor).2.mounts = s.mounts := by
  rw [close]
  split <;> rfl

end Mounts

/-! ## Which descriptors are in use -/

section Descriptors

variable {W Fs : Type} {F : FileSystems W Fs} {s s' : State W Fs} {descriptor : ℤ}
  {files : Fin maxOpenFiles → Option (OpenFile Fs)} {index : Fin maxOpenFiles}

theorem fileOf_update {files : Fin maxOpenFiles → Option (OpenFile Fs)} {index : Fin maxOpenFiles}
    {file : OpenFile Fs} (h : fileOf files descriptor = some (index, file)) (new : OpenFile Fs) :
    fileOf (Function.update files index (some new)) descriptor = some (index, new) := by
  rw [fileOf] at h ⊢
  split at h
  · rename_i hrange
    rw [dif_pos hrange]
    obtain ⟨old, -, hold⟩ := Option.map_eq_some_iff.mp h
    obtain ⟨rfl, rfl⟩ := Prod.mk.inj hold
    rw [Function.update_self]
    rfl
  · cases h

theorem fileOf_eq_some {file : OpenFile Fs} :
    fileOf files descriptor = some (index, file) ↔
      descriptor = index.val ∧ files index = some file := by
  rw [fileOf]
  constructor
  · intro h
    split at h
    · rename_i hrange
      obtain ⟨old, hold, heq⟩ := Option.map_eq_some_iff.mp h
      obtain ⟨rfl, rfl⟩ := Prod.mk.inj heq
      exact ⟨(Int.toNat_of_nonneg hrange.1).symm, hold⟩
    · cases h
  · rintro ⟨rfl, hfile⟩
    rw [dif_pos ⟨Int.natCast_nonneg _, index.isLt⟩]
    simp only [Int.toNat_natCast, Fin.eta, hfile, Option.map_some]

/-- A descriptor is in use. -/
def Used (files : Fin maxOpenFiles → Option (OpenFile Fs)) (descriptor : ℤ) : Prop :=
  ∃ index : Fin maxOpenFiles, descriptor = index.val ∧ files index ≠ none

theorem used_update_some (file : OpenFile Fs) :
    Used (Function.update files index (some file)) descriptor ↔
      descriptor = index.val ∨ Used files descriptor := by
  constructor
  · rintro ⟨other, rfl, hused⟩
    by_cases hother : other = index
    · exact Or.inl (by rw [hother])
    · rw [Function.update_of_ne hother] at hused
      exact Or.inr ⟨other, rfl, hused⟩
  · rintro (rfl | ⟨other, rfl, hused⟩)
    · exact ⟨index, rfl, by rw [Function.update_self]; exact Option.some_ne_none _⟩
    · refine ⟨other, rfl, ?_⟩
      by_cases hother : other = index
      · rw [hother, Function.update_self]
        exact Option.some_ne_none _
      · rw [Function.update_of_ne hother]
        exact hused

theorem used_update_none :
    Used (Function.update files index none) descriptor ↔
      Used files descriptor ∧ descriptor ≠ index.val := by
  constructor
  · rintro ⟨other, rfl, hused⟩
    by_cases hother : other = index
    · rw [hother, Function.update_self] at hused
      exact absurd rfl hused
    · rw [Function.update_of_ne hother] at hused
      exact ⟨⟨other, rfl, hused⟩, fun h => hother (Fin.ext (Int.ofNat_inj.mp h))⟩
  · rintro ⟨⟨other, rfl, hused⟩, hne⟩
    refine ⟨other, rfl, ?_⟩
    rw [Function.update_of_ne fun h => hne (by rw [h])]
    exact hused

/-- What an answer of `open` says about the table of open files: it failed and the table is as
before, or a descriptor that was free is used. -/
def Opens (files : Fin maxOpenFiles → Option (OpenFile Fs)) (answer : ℤ × State W Fs) : Prop :=
  (answer.1 < 0 ∧ answer.2.files = files) ∨
    ∃ index file, answer.1 = (index : Fin maxOpenFiles).val ∧ files index = none ∧
      answer.2.files = Function.update files index (some file)

theorem assign_files (s : State W Fs) (node : Node Fs) (flags : OpenFlags) :
    Opens s.files (assign s node flags) := by
  rw [assign]
  split
  · exact Or.inl ⟨show errorNoDescriptors < 0 by decide, rfl⟩
  · rename_i index hfree
    have hnone := List.find?_some hfree
    exact Or.inr ⟨index, _, rfl, Option.isNone_iff_eq_none.mp hnone, rfl⟩

theorem openError_neg (error : Storage.Error) : openError error < 0 := by
  cases error <;> decide

theorem openNode_error {path : List UInt8} {flags : OpenFlags} {base : Option (List UInt8)}
    {error : ℤ} {w : W} (h : openNode F s path flags base = (.error error, w)) : error < 0 := by
  have hfailed {e : ℤ} {w' : W} (heq : (Except.error e, w') =
      ((.error error, w) : Except ℤ (Node Fs) × W)) (he : e < 0) : error < 0 :=
    Except.error.inj (Prod.mk.inj heq).1 ▸ he
  rw [openNode] at h
  split at h
  · cases h
  split at h
  · exact hfailed h (by decide)
  split at h
  · exact hfailed h (openError_neg _)
  split at h
  · exact hfailed h (by decide)
  split at h
  · exact hfailed h (openError_neg _)
  · cases h

/-- **`open`** fails and leaves the table as it is, or takes a descriptor that was free. -/
theorem openFile_files (s : State W Fs) (path : List UInt8) (flags : OpenFlags)
    (base : Option (List UInt8)) : Opens s.files (openFile F s path flags base) := by
  rw [openFile]
  split
  · rename_i hnode
    exact Or.inl ⟨openNode_error hnode, rfl⟩
  split
  · exact Or.inl ⟨show errorIsDirectory < 0 by decide, rfl⟩
  split
  · exact Or.inl ⟨show errorReadOnly < 0 by decide, rfl⟩
  split
  · split
    · exact assign_files _ _ _
    · exact Or.inl ⟨openError_neg _, rfl⟩
  · exact assign_files _ _ _

/-- Closing a descriptor that was taken undoes it. -/
theorem close_files {file : OpenFile Fs}
    (h : s.files = Function.update files index (some file)) :
    (close s index.val).2.files = Function.update files index none := by
  have hfile : fileOf s.files index.val = some (index, file) :=
    fileOf_eq_some.mpr ⟨rfl, by rw [h, Function.update_self]⟩
  rw [close, hfile]
  dsimp only
  rw [h, Function.update_idem]

/-- What a read of a descriptor in use does: nothing, or what the file system answers. -/
theorem read_cases {file : OpenFile Fs} (hfile : fileOf s.files descriptor = some (index, file))
    (length : ℕ) :
    read F s descriptor length = (⟨0, .unsupported⟩, [], s) ∨
      ∃ result bytes w,
        F.read s.world file.node.filesystem file.node.toEntry file.position length =
          (result, bytes, w) ∧
        read F s descriptor length = (result, bytes,
          if result.ok then
            { s with
              files := Function.update s.files index
                (some { file with position := file.position + result.transferred })
              world := w }
          else { s with world := w }) := by
  rw [read, hfile]
  rcases hanswer : F.read s.world file.node.filesystem file.node.toEntry file.position length
    with ⟨result, bytes, w⟩
  simp only [hanswer]
  split
  · exact Or.inl rfl
  · refine Or.inr ⟨result, bytes, w, rfl, ?_⟩
    split
    · rfl
    · rfl

/-- A read changes nothing but the position of its file. -/
theorem read_files {file : OpenFile Fs} (h : s.files = Function.update files index (some file))
    (length : ℕ) :
    ∃ file', (read F s index.val length).2.2.files = Function.update files index (some file') := by
  have hfile : fileOf s.files index.val = some (index, file) :=
    fileOf_eq_some.mpr ⟨rfl, by rw [h, Function.update_self]⟩
  rcases read_cases (F := F) hfile length with hread | ⟨result, bytes, w, -, hread⟩
  · rw [hread]
    exact ⟨file, h⟩
  · rw [hread]
    dsimp only
    split
    · refine ⟨{ file with position := file.position + result.transferred }, ?_⟩
      dsimp only
      rw [h, Function.update_idem]
    · exact ⟨file, h⟩

/-- Reads put as many bytes into the buffer as they report. -/
def FileSystems.Honest (F : FileSystems W Fs) : Prop :=
  ∀ w filesystem entry position length,
    (F.read w filesystem entry position length).1.ok = true →
      (F.read w filesystem entry position length).1.transferred ≤
        (F.read w filesystem entry position length).2.1.length

theorem read_honest (hF : F.Honest) (s : State W Fs) (descriptor : ℤ) (length : ℕ)
    (hok : (read F s descriptor length).1.ok = true) :
    (read F s descriptor length).1.transferred ≤ (read F s descriptor length).2.1.length := by
  cases hfile : fileOf s.files descriptor with
  | none =>
    rw [read, hfile] at hok
    cases hok
  | some found =>
    obtain ⟨index, file⟩ := found
    rcases read_cases (F := F) hfile length with hread | ⟨result, bytes, w, hanswer, hread⟩
    · rw [hread] at hok
      cases hok
    · have hbytes := hF s.world file.node.filesystem file.node.toEntry file.position length
      rw [hanswer] at hbytes
      rw [hread] at hok ⊢
      exact hbytes hok

/-- The loop of `read_file` ends, and changes nothing but the position of its file. -/
theorem readLoop_files (hF : F.Honest) {capacity fuel : ℕ} {buffer : List UInt8}
    (hfuel : capacity - buffer.length ≤ fuel) {file : OpenFile Fs}
    (h : s.files = Function.update files index (some file)) :
    ∃ filled s' file', readLoop F index.val capacity fuel buffer s = some (filled, s') ∧
      s'.files = Function.update files index (some file') := by
  induction fuel generalizing buffer s file with
  | zero =>
    unfold readLoop
    rw [if_neg (by omega)]
    exact ⟨buffer, s, file, rfl, h⟩
  | succ fuel ih =>
    unfold readLoop
    split
    · rename_i hmore
      have hhonest := read_honest hF s index.val (capacity - buffer.length)
      obtain ⟨file', hfile'⟩ := read_files (F := F) h (capacity - buffer.length)
      rcases hread : read F s index.val (capacity - buffer.length) with ⟨result, bytes, s'⟩
      rw [hread] at hhonest hfile'
      dsimp only at hhonest hfile' ⊢
      split
      · exact ⟨buffer, s', file', rfl, hfile'⟩
      · rename_i hgoes
        rw [Bool.or_eq_true, not_or, Bool.not_eq_true', Bool.not_eq_false, beq_iff_eq] at hgoes
        have hbytes := hhonest hgoes.1
        refine ih ?_ hfile'
        rw [List.length_append, List.length_take, Nat.min_eq_left hbytes]
        omega
    · exact ⟨buffer, s, file, rfl, h⟩

/-- **`read_file`** ends, and leaves the table of open files as it was. -/
theorem readFile_files (hF : F.Honest) (s : State W Fs) (path : List UInt8) (capacity : ℕ) :
    ∃ returned buffer s', readFile F s path capacity = some (returned, buffer, s') ∧
      s'.files = s.files := by
  rw [readFile]
  split
  · exact ⟨0, [], s, rfl, rfl⟩
  · have hopen := openFile_files (F := F) s path OpenFlags.readOnly none
    generalize openFile F s path OpenFlags.readOnly none = answer at hopen ⊢
    obtain ⟨descriptor, opened⟩ := answer
    dsimp only
    rcases hopen with ⟨hneg, hsame⟩ | ⟨index, file, hindex, hfree, hfiles⟩
    · rw [if_pos hneg]
      exact ⟨0, [], opened, rfl, hsame⟩
    · dsimp only at hindex hfiles
      rw [hindex, if_neg (Int.not_lt.mpr (Int.natCast_nonneg _))]
      obtain ⟨filled, after, file', hloop, hafter⟩ :=
        readLoop_files hF (Nat.sub_le capacity ([] : List UInt8).length) hfiles
      have hundo : ∀ {s' : State W Fs} {file' : OpenFile Fs},
          s'.files = Function.update s.files index (some file') →
          (close s' index.val).2.files = s.files := by
        intro s' file' hs'
        rw [close_files hs', ← hfree, Function.update_eq_self]
      rw [hloop]
      dsimp only
      split
      · obtain ⟨file'', hprobe⟩ := read_files (F := F) hafter 1
        exact ⟨_, _, _, rfl, hundo hprobe⟩
      · exact ⟨_, _, _, rfl, hundo hafter⟩

end Descriptors

end ShirleysOS.Vfs
