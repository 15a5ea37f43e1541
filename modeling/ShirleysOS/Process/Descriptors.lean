import ShirleysOS.Vfs.ReadFile

/-!
# Descriptors of programs

A program knows its files by the entries of one table; an entry for a file holds a descriptor of
the VFS. `exec` runs another program, which uses the same table, until that program exits. Sources:
`kernel/process/process.cpp`, `kernel/syscall/syscall.cpp` and `kernel/user/launch.cpp`.
-/

namespace ShirleysOS.Process

/-- `Kind`. -/
inductive Kind
  | unused
  | standardInput
  | standardOutput
  | file
deriving DecidableEq, Repr

/-- `Entry`; `backing` is the descriptor of the VFS of a file. -/
structure Entry where
  kind : Kind := .unused
  backing : ℤ := -1
deriving DecidableEq, Repr

abbrev maxOpenFiles : ℕ := 16

/-- The table, the VFS below it, and how many programs there are: the one that runs and those that
wait for it. -/
structure State (W Fs : Type) where
  table : Fin maxOpenFiles → Entry
  vfs : Vfs.State W Fs
  programs : ℕ

/-! ## The table -/

/-- The standard streams. -/
def standardTable : Fin maxOpenFiles → Entry
  | 0 => ⟨.standardInput, -1⟩
  | 1 => ⟨.standardOutput, -1⟩
  | 2 => ⟨.standardOutput, -1⟩
  | _ => {}

section Calls

variable {W Fs : Type} (F : Vfs.FileSystems W Fs)

/-- `reset`. -/
def reset (s : State W Fs) : State W Fs := { s with table := standardTable }

/-- What `teardown` and `close` do to an entry: the file behind it is closed, and it is cleared. -/
def release (s : State W Fs) (descriptor : Fin maxOpenFiles) : State W Fs :=
  { s with
    table := Function.update s.table descriptor {}
    vfs :=
      if (s.table descriptor).kind = .file then (Vfs.close s.vfs (s.table descriptor).backing).2
      else s.vfs }

/-- `teardown`. -/
def teardown (s : State W Fs) : State W Fs := (List.finRange maxOpenFiles).foldl release s

/-- `open_access_mask`. -/
def openAccessMask : UInt64 := 3

/-- `open_create`. -/
def openCreate : UInt64 := 0o100

/-- `open_truncate`. -/
def openTruncate : UInt64 := 0o1000

/-- What a program asks `open` for, when the flags are supported. -/
def accessOf (flags : UInt64) : Option Vfs.OpenFlags :=
  if flags &&& ~~~(openAccessMask ||| openCreate ||| openTruncate) ≠ 0 then none
  else
    let mode := flags &&& openAccessMask
    let create := flags &&& openCreate ≠ 0
    let truncate := flags &&& openTruncate ≠ 0
    if mode = 1 then some ⟨false, true, create, truncate⟩
    else if mode = 2 then some ⟨true, true, create, truncate⟩
    else if mode = 0 then some ⟨true, false, create, truncate⟩
    else none

/-- The first entry behind the standard streams that is not used. -/
def freeEntry (table : Fin maxOpenFiles → Entry) : Option (Fin maxOpenFiles) :=
  (List.finRange maxOpenFiles).find? fun descriptor =>
    3 ≤ descriptor.val && (table descriptor).kind = .unused

/-- `open`; the path is `none` when it is null. A file that finds no entry is closed again. -/
def openFile (s : State W Fs) (path : Option (List UInt8)) (flags : UInt64) :
    ℤ × State W Fs :=
  match path with
  | none => (-1, s)
  | some path =>
    match accessOf flags with
    | none => (-1, s)
    | some access =>
      match Vfs.openFile F s.vfs path access none with
      | (backing, vfs) =>
        if backing < 0 then (backing, { s with vfs := vfs })
        else
          match freeEntry s.table with
          | some descriptor =>
            (descriptor.val,
              { s with
                table := Function.update s.table descriptor ⟨.file, backing⟩
                vfs := vfs })
          | none => (-1, { s with vfs := (Vfs.close vfs backing).2 })

/-- `close`. -/
def close (s : State W Fs) (descriptor : ℤ) : ℤ × State W Fs :=
  if h : 0 ≤ descriptor ∧ descriptor.toNat < maxOpenFiles then
    if (s.table ⟨descriptor.toNat, h.2⟩).kind = .unused then (-1, s)
    else (0, release s ⟨descriptor.toNat, h.2⟩)
  else (-1, s)

/-! ## Programs -/

/-- `max_image_bytes`. -/
abbrev maxImageBytes : ℕ := 64 * 1024

/-- `read_image`: the length of the image, 0 when it cannot be read. -/
def readImage (s : Vfs.State W Fs) (path : List UInt8) : Option (ℕ × Vfs.State W Fs) :=
  match Vfs.openFile F s path .readOnly none with
  | (descriptor, s) =>
    if descriptor < 0 then some (0, s)
    else
      let size := ((Vfs.fileOf s.files descriptor).map fun file => file.2.node.size).getD 0
      let s := (Vfs.close s descriptor).2
      if size > maxImageBytes then some (0, s)
      else (Vfs.readFile F s path maxImageBytes).map fun (length, _, s) => (length, s)

/-- `Exec` until the program that is executed starts, or all of it when it does not. `ready` says
whether an address space can be made for it and its image can be loaded. -/
def exec (s : State W Fs) (path : Option (List UInt8)) (ready : Bool) : Option (State W Fs) :=
  match path with
  | none => some (reset s)
  | some path =>
    match readImage F s.vfs path with
    | none => none
    | some (size, vfs) =>
      if size = 0 then some (reset { s with vfs := vfs })
      else if ready then some (reset { s with vfs := vfs, programs := s.programs + 1 })
      else some (reset (reset { s with vfs := vfs }))

/-- `Exit`, and the end of the `Exec` that waits for the program, if there is one. -/
def exit (s : State W Fs) : State W Fs :=
  if s.programs = 1 then { teardown s with programs := 0 }
  else reset { teardown s with programs := s.programs - 1 }

/-- A call of the program that runs. -/
inductive Call
  | «open» (path : Option (List UInt8)) (flags : UInt64)
  | close (descriptor : ℤ)
  | exec (path : Option (List UInt8)) (ready : Bool)
  | exit

/-- One call, when there is a program to make it. -/
def step (call : Call) (s : State W Fs) : Option (State W Fs) :=
  if s.programs = 0 then some s
  else
    match call with
    | .open path flags => some (openFile F s path flags).2
    | .close descriptor => some (close s descriptor).2
    | .exec path ready => exec F s path ready
    | .exit => some (exit s)

/-- Calls one after the other. The calls behind an `exec` are those of the program that it started,
until its `exit`. -/
def run (calls : List Call) (s : State W Fs) : Option (State W Fs) :=
  calls.foldlM (fun s call => step F call s) s

/-- A program has started. -/
def started (vfs : Vfs.State W Fs) : State W Fs := ⟨standardTable, vfs, 1⟩

end Calls

/-! ## The account -/

section Account

variable {W Fs : Type} {F : Vfs.FileSystems W Fs} {s : State W Fs}

/-- The descriptors of the VFS that are in use are those of the files in the table, and none is in
it twice. -/
structure Accounted (s : State W Fs) : Prop where
  used : ∀ backing, Vfs.Used s.vfs.files backing ↔ ∃ i, s.table i = ⟨.file, backing⟩
  distinct : ∀ {i j backing}, s.table i = ⟨.file, backing⟩ → s.table j = ⟨.file, backing⟩ → i = j

theorem update_eq_file {table : Fin maxOpenFiles → Entry} {i j : Fin maxOpenFiles} {entry : Entry}
    {backing : ℤ} (h : Function.update table i entry j = ⟨.file, backing⟩) :
    (j = i ∧ entry = ⟨.file, backing⟩) ∨ (j ≠ i ∧ table j = ⟨.file, backing⟩) := by
  by_cases hj : j = i
  · rw [hj, Function.update_self] at h
    exact Or.inl ⟨hj, h⟩
  · rw [Function.update_of_ne hj] at h
    exact Or.inr ⟨hj, h⟩

theorem empty_ne_file {backing : ℤ} : ({} : Entry) ≠ ⟨.file, backing⟩ :=
  fun h => nomatch (Entry.mk.inj h).1

/-- Clearing an entry and closing its file keep the account. -/
theorem Accounted.release (h : Accounted s) (i : Fin maxOpenFiles) :
    Accounted (release s i) := by
  have hdistinct : ∀ {j k backing},
      (Process.release s i).table j = ⟨.file, backing⟩ →
      (Process.release s i).table k = ⟨.file, backing⟩ → j = k := by
    intro j k backing hj hk
    rcases update_eq_file hj with ⟨-, hempty⟩ | ⟨-, hj⟩
    · exact absurd hempty empty_ne_file
    rcases update_eq_file hk with ⟨-, hempty⟩ | ⟨-, hk⟩
    · exact absurd hempty empty_ne_file
    exact h.distinct hj hk
  refine ⟨fun backing => ?_, hdistinct⟩
  have htable : (∃ j, (Process.release s i).table j = ⟨.file, backing⟩) ↔
      ∃ j, j ≠ i ∧ s.table j = ⟨.file, backing⟩ := by
    constructor
    · rintro ⟨j, hj⟩
      rcases update_eq_file hj with ⟨-, hempty⟩ | hj
      · exact absurd hempty empty_ne_file
      · exact ⟨j, hj⟩
    · rintro ⟨j, hne, hj⟩
      exact ⟨j, (Function.update_of_ne hne _ _).trans hj⟩
  rw [htable, Process.release]
  dsimp only
  -- the entry had a file, which is closed with it, or none
  by_cases hfile : (s.table i).kind = .file
  · have hentry : s.table i = ⟨.file, (s.table i).backing⟩ := by
      rw [← hfile]
    obtain ⟨index, hindex, hopen⟩ := (h.used _).mpr ⟨i, hentry⟩
    obtain ⟨file, hopened⟩ := Option.ne_none_iff_exists'.mp hopen
    have hfiles : s.vfs.files = Function.update s.vfs.files index (some file) := by
      rw [← hopened, Function.update_eq_self]
    rw [if_pos hfile, hindex, Vfs.close_files hfiles, Vfs.used_update_none, h.used]
    constructor
    · rintro ⟨⟨j, hj⟩, hne⟩
      refine ⟨j, ?_, hj⟩
      rintro rfl
      rw [hj] at hindex
      exact hne hindex
    · rintro ⟨j, hne, hj⟩
      refine ⟨⟨j, hj⟩, ?_⟩
      rintro rfl
      exact hne (h.distinct hj (hindex ▸ hentry))
  · rw [if_neg hfile, h.used]
    constructor
    · rintro ⟨j, hj⟩
      refine ⟨j, ?_, hj⟩
      rintro rfl
      exact hfile (by rw [hj])
    · rintro ⟨j, -, hj⟩
      exact ⟨j, hj⟩

theorem freeEntry_unused {table : Fin maxOpenFiles → Entry} {i : Fin maxOpenFiles}
    (h : freeEntry table = some i) : (table i).kind = .unused := by
  have hfound := List.find?_some h
  simp only [Bool.and_eq_true, decide_eq_true_eq] at hfound
  exact hfound.2

/-- A change of the VFS that leaves the open files as they are keeps the account. -/
theorem Accounted.vfs (h : Accounted s) {vfs : Vfs.State W Fs} (hfiles : vfs.files = s.vfs.files) :
    Accounted { s with vfs := vfs } :=
  ⟨fun backing => by rw [hfiles]; exact h.used backing, h.distinct⟩

/-- **`open`** enters the descriptor that it gets, or gives it back. -/
theorem Accounted.openFile (h : Accounted s) (path : Option (List UInt8)) (flags : UInt64) :
    Accounted (openFile F s path flags).2 := by
  cases path with
  | none => exact h
  | some path =>
  rw [Process.openFile]
  cases haccess : accessOf flags with
  | none => exact h
  | some access =>
  have hopen := Vfs.openFile_files (F := F) s.vfs path access none
  dsimp only
  generalize Vfs.openFile F s.vfs path access none = answer at hopen ⊢
  rcases hopen with ⟨hneg, hsame⟩ | ⟨index, file, hindex, hfree, hfiles⟩
  · rw [if_pos hneg]
    exact h.vfs hsame
  rw [hindex, if_neg (Int.not_lt.mpr (Int.natCast_nonneg _))]
  -- the descriptor was free, so no entry holds it
  have hnew : ∀ j, s.table j ≠ ⟨.file, index.val⟩ := by
    intro j hj
    obtain ⟨other, hother, hused⟩ := (h.used _).mpr ⟨j, hj⟩
    obtain rfl : index = other := Fin.ext (Int.ofNat_inj.mp hother)
    exact hused hfree
  split
  · rename_i i hentry
    have hunused := freeEntry_unused hentry
    refine ⟨fun backing => ?_, fun {j k backing} hj hk => ?_⟩
    · dsimp only
      rw [hfiles, Vfs.used_update_some, h.used]
      constructor
      · rintro (rfl | ⟨j, hj⟩)
        · exact ⟨i, Function.update_self _ _ _⟩
        · refine ⟨j, (Function.update_of_ne ?_ _ _).trans hj⟩
          rintro rfl
          rw [hj] at hunused
          cases hunused
      · rintro ⟨j, hj⟩
        rcases update_eq_file hj with ⟨-, hsame⟩ | ⟨-, hj⟩
        · exact Or.inl (Entry.mk.inj hsame).2.symm
        · exact Or.inr ⟨j, hj⟩
    · rcases update_eq_file hj with ⟨hji, hsame⟩ | ⟨-, hold⟩
      · rcases update_eq_file hk with ⟨hki, -⟩ | ⟨-, hold⟩
        · exact hji.trans hki.symm
        · exact absurd (hold.trans hsame.symm) (hnew k)
      · rcases update_eq_file hk with ⟨-, hsame⟩ | ⟨-, hold'⟩
        · exact absurd (hold.trans hsame.symm) (hnew j)
        · exact h.distinct hold hold'
  · refine h.vfs ?_
    rw [Vfs.close_files hfiles, ← hfree, Function.update_eq_self]

theorem Accounted.close (h : Accounted s) (descriptor : ℤ) :
    Accounted (close s descriptor).2 := by
  rw [Process.close]
  split
  · split
    · exact h
    · exact h.release _
  · exact h

/-- `teardown` clears the entries one after the other. -/
theorem Accounted.foldl_release (h : Accounted s) (entries : List (Fin maxOpenFiles)) :
    Accounted (entries.foldl Process.release s) ∧
      ∀ i, i ∈ entries ∨ s.table i = {} → (entries.foldl Process.release s).table i = {} := by
  induction entries generalizing s with
  | nil => exact ⟨h, fun i hi => hi.resolve_left List.not_mem_nil⟩
  | cons i entries ih =>
    obtain ⟨haccount, hempty⟩ := ih (h.release i)
    refine ⟨haccount, fun j hj => hempty j ?_⟩
    by_cases hji : j = i
    · exact Or.inr (hji ▸ Function.update_self _ _ _)
    · refine hj.imp (fun hmem => (List.mem_cons.mp hmem).resolve_left hji) fun hempty => ?_
      exact (Function.update_of_ne hji _ _).trans hempty

/-- **`teardown`** closes all files. -/
theorem Accounted.teardown (h : Accounted s) :
    Accounted (teardown s) ∧ ∀ i, (teardown s).table i = {} := by
  obtain ⟨haccount, hempty⟩ := h.foldl_release (List.finRange maxOpenFiles)
  exact ⟨haccount, fun i => hempty i (Or.inl (List.mem_finRange i))⟩

/-- No entry is a file. -/
def NoFiles (s : State W Fs) : Prop := ∀ i, (s.table i).kind ≠ .file

instance : Decidable (NoFiles s) := inferInstanceAs (Decidable (∀ i, (s.table i).kind ≠ .file))

theorem standardTable_noFiles : ∀ i, (standardTable i).kind ≠ .file := by decide

/-- `reset` keeps the account only when there are no files to forget. -/
theorem Accounted.reset (h : Accounted s) (hnone : NoFiles s) : Accounted (reset s) := by
  refine ⟨fun backing => ?_, fun {i j backing} hi _ =>
    absurd (congrArg Entry.kind hi) (standardTable_noFiles i)⟩
  rw [Process.reset]
  dsimp only
  rw [h.used]
  refine iff_of_false ?_ ?_
  · rintro ⟨i, hi⟩
    exact hnone i (by rw [hi])
  · rintro ⟨i, hi⟩
    exact standardTable_noFiles i (by rw [hi])

/-- **`Exit`** closes all files of the program. -/
theorem Accounted.exit (h : Accounted s) : Accounted (exit s) := by
  obtain ⟨haccount, hempty⟩ := h.teardown
  rw [Process.exit]
  split
  · exact ⟨haccount.used, haccount.distinct⟩
  · refine Accounted.reset ⟨haccount.used, haccount.distinct⟩ fun i => ?_
    dsimp only
    rw [hempty i]
    exact fun hkind => nomatch hkind

/-- `read_image` ends, and leaves the open files as they were. -/
theorem readImage_files (hF : F.Honest) (vfs : Vfs.State W Fs) (path : List UInt8) :
    ∃ size vfs', readImage F vfs path = some (size, vfs') ∧ vfs'.files = vfs.files := by
  rw [readImage]
  have hopen := Vfs.openFile_files (F := F) vfs path Vfs.OpenFlags.readOnly none
  generalize Vfs.openFile F vfs path Vfs.OpenFlags.readOnly none = answer at hopen ⊢
  obtain ⟨descriptor, opened⟩ := answer
  dsimp only
  rcases hopen with ⟨hneg, hsame⟩ | ⟨index, file, hindex, hfree, hfiles⟩
  · rw [if_pos hneg]
    exact ⟨0, opened, rfl, hsame⟩
  · dsimp only at hindex hfiles
    have hclosed : (Vfs.close opened index.val).2.files = vfs.files := by
      rw [Vfs.close_files hfiles, ← hfree, Function.update_eq_self]
    rw [hindex, if_neg (Int.not_lt.mpr (Int.natCast_nonneg _))]
    split
    · exact ⟨0, _, rfl, hclosed⟩
    · obtain ⟨length, buffer, after, hread, hafter⟩ :=
        Vfs.readFile_files hF (Vfs.close opened index.val).2 path maxImageBytes
      rw [hread]
      exact ⟨length, after, rfl, hafter.trans hclosed⟩

/-- **`Exec`** of a program without open files ends, with the account kept. -/
theorem Accounted.exec (h : Accounted s) (hF : F.Honest) (hnone : NoFiles s)
    (path : Option (List UInt8)) (ready : Bool) :
    ∃ s', exec F s path ready = some s' ∧ Accounted s' := by
  cases path with
  | none => exact ⟨_, rfl, h.reset hnone⟩
  | some path =>
    obtain ⟨size, vfs, hread, hfiles⟩ := readImage_files hF s.vfs path
    have hvfs := h.vfs hfiles
    rw [Process.exec, hread]
    dsimp only
    split
    · exact ⟨_, rfl, hvfs.reset hnone⟩
    split
    · exact ⟨_, rfl, Accounted.reset ⟨hvfs.used, hvfs.distinct⟩ hnone⟩
    · exact ⟨_, rfl, (hvfs.reset hnone).reset standardTable_noFiles⟩

/-- The program that runs has no open files when it executes another. -/
def Clear : Call → State W Fs → Prop
  | .exec _ _, s => NoFiles s
  | _, _ => True

/-- Every call of a sequence is clear when it is made. -/
def ClearRun (F : Vfs.FileSystems W Fs) : List Call → State W Fs → Prop
  | [], _ => True
  | call :: calls, s => Clear call s ∧ ∀ s' ∈ step F call s, ClearRun F calls s'

instance : (call : Call) → (s : State W Fs) → Decidable (Clear call s)
  | .open _ _, _ => isTrue trivial
  | .close _, _ => isTrue trivial
  | .exec _ _, s => inferInstanceAs (Decidable (NoFiles s))
  | .exit, _ => isTrue trivial

instance decidableClearRun : (calls : List Call) → (s : State W Fs) →
    Decidable (ClearRun F calls s)
  | [], _ => isTrue trivial
  | call :: calls, s =>
    have := decidableClearRun calls
    inferInstanceAs (Decidable (Clear call s ∧ ∀ s' ∈ step F call s, ClearRun F calls s'))

theorem Accounted.step (h : Accounted s) (hF : F.Honest) {call : Call} (hclear : Clear call s) :
    ∃ s', step F call s = some s' ∧ Accounted s' := by
  unfold Process.step
  split
  · exact ⟨s, rfl, h⟩
  · cases call with
    | «open» path flags => exact ⟨_, rfl, h.openFile path flags⟩
    | close descriptor => exact ⟨_, rfl, h.close descriptor⟩
    | exec path ready => exact h.exec hF hclear path ready
    | exit => exact ⟨_, rfl, h.exit⟩

theorem Accounted.run (h : Accounted s) (hF : F.Honest) {calls : List Call}
    (hclear : ClearRun F calls s) : ∃ s', run F calls s = some s' ∧ Accounted s' := by
  induction calls generalizing s with
  | nil => exact ⟨s, rfl, h⟩
  | cons call calls ih =>
    obtain ⟨next, hstep, hnext⟩ := h.step hF hclear.1
    obtain ⟨last, hrun, hlast⟩ := ih hnext (hclear.2 next hstep)
    refine ⟨last, ?_, hlast⟩
    rw [Process.run, List.foldlM_cons, hstep]
    exact hrun

/-- **Descriptors are accounted for.** From a program that has just started, with no descriptor of
the VFS in use, after any calls of it and of the programs that it executes, the descriptors of the
VFS that are in use are those that the table holds, each once, as long as no program executes
another while it has a file open. -/
theorem run_accounted (hF : F.Honest) (vfs : Vfs.State W Fs) (hfree : ∀ i, vfs.files i = none)
    (calls : List Call) (hclear : ClearRun F calls (started vfs)) :
    ∃ s, run F calls (started vfs) = some s ∧ Accounted s := by
  refine Accounted.run ⟨fun backing => ?_, fun {i j backing} hi _ => ?_⟩ hF hclear
  · refine iff_of_false ?_ ?_
    · rintro ⟨index, -, hused⟩
      exact hused (hfree index)
    · rintro ⟨i, hi⟩
      exact standardTable_noFiles i (congrArg Entry.kind hi)
  · exact absurd (congrArg Entry.kind hi) (standardTable_noFiles i)

end Account

/-! ## Programs with one file -/

/-- The file of `Vfs.oneFile`. -/
def fileA : Option (List UInt8) := some [Vfs.slash, 0x61]

theorem oneFile_honest (failing : ℕ) : (Vfs.oneFile failing).Honest := by
  intro w filesystem entry position length hok
  simp only [Vfs.oneFile] at hok ⊢
  split at hok
  · cases hok
  · rename_i hread
    rw [if_neg hread]

theorem run_accounted_closed :
    ∃ s, run (Vfs.oneFile 1000) [.open fileA 0, .close 3, .exec fileA true, .open fileA 0, .exit]
        (started Vfs.oneFileMounted) = some s ∧ Accounted s :=
  run_accounted (oneFile_honest 1000) Vfs.oneFileMounted (fun _ => rfl) _
    (by decide +kernel)

/-- A program that executes another while it has a file open loses its descriptor: it is in use, and
the table holds none. -/
theorem run_leaks :
    (∀ i, Vfs.oneFileMounted.files i = none) ∧
      ∃ s, run (Vfs.oneFile 1000) [.open fileA 0, .exec fileA true, .exit]
          (started Vfs.oneFileMounted) = some s ∧
        Vfs.Used s.vfs.files 0 ∧ NoFiles s ∧ ¬Accounted s := by
  have hrun : ((run (Vfs.oneFile 1000) [.open fileA 0, .exec fileA true, .exit]
      (started Vfs.oneFileMounted)).any fun s =>
        (s.vfs.files 0).isSome && decide (NoFiles s)) = true := by decide +kernel
  cases hs : run (Vfs.oneFile 1000) [.open fileA 0, .exec fileA true, .exit]
      (started Vfs.oneFileMounted) with
  | none =>
    rw [hs] at hrun
    cases hrun
  | some s =>
    rw [hs] at hrun
    obtain ⟨hused, hnone⟩ := Bool.and_eq_true_iff.mp hrun
    have hused : Vfs.Used s.vfs.files 0 := ⟨0, rfl, Option.isSome_iff_ne_none.mp hused⟩
    have hnone : NoFiles s := of_decide_eq_true hnone
    refine ⟨fun _ => rfl, s, rfl, hused, hnone, fun haccount => ?_⟩
    obtain ⟨i, hi⟩ := (haccount.used 0).mp hused
    exact hnone i (congrArg Entry.kind hi)

end ShirleysOS.Process
