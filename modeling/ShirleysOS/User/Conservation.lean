import ShirleysOS.User.Launch

/-!
# What a launch does to the free pages

The pages that the tables take come back when the address space is torn down, wherever building it
fails. The pages of the program itself do not: `destroy` leaves mapped pages alone, and nothing
else gives them back. So the free pages are the same afterwards exactly as long as no launch takes
a page for its program.
-/

namespace ShirleysOS.User

open Lib Paging
open Memory (pageSize)

section Conserves

variable {α : Type} {F : Format} {A : PageSource α} {width root : ℕ} {managed : Set ℕ}
  {free : α → Finset ℕ} {P : Platform}

/-- Whatever the steps take from the allocator becomes a table, also when they fail. -/
def Conserves (F : Format) (width : ℕ) (managed : Set ℕ) (free : α → Finset ℕ) (root : ℕ)
    (f : Machine α → Bool × Machine α) : Prop :=
  ∀ s T, Owned F width managed free root s T →
    ∃ T', Owned F width managed free root (f s).2 T' ∧ Walks free s T (f s).2 T'

theorem conserves_map (hF : F.Lawful width) (hA : A.Correct width managed free)
    (address physical : ℕ) (flags : PageFlags) :
    Conserves F width managed free root ((pageTable F A root).map address physical flags) := by
  intro s T hT
  obtain ⟨T', hT', hwalks, -⟩ := mapPage_spec hF hA hT
    (show mapPage F A root address physical flags s = (_, _) from rfl)
  exact ⟨T', hT', hwalks⟩

theorem conserves_done : Conserves F width managed free root fun s => (true, s) :=
  fun _ T hT => ⟨T, hT, Walks.refl⟩

theorem Conserves.andThen {f g : Machine α → Bool × Machine α}
    (hf : Conserves F width managed free root f) (hg : Conserves F width managed free root g) :
    Conserves F width managed free root (andThen f g) := by
  intro s T hT
  obtain ⟨Ta, hTa, hwalks⟩ := hf s T hT
  unfold User.andThen
  split
  · rename_i sa heq
    rw [heq] at hTa hwalks
    exact ⟨Ta, hTa, hwalks⟩
  · rename_i sa heq
    rw [heq] at hTa hwalks
    obtain ⟨T', hT', hwalks'⟩ := hg sa Ta hTa
    exact ⟨T', hT', hwalks.trans hwalks'⟩

theorem conserves_mapIdentity (hF : F.Lawful width) (hA : A.Correct width managed free)
    (flags : PageFlags) (count address : ℕ) :
    Conserves F width managed free root (mapIdentity (pageTable F A root) flags count address) := by
  induction count generalizing address with
  | zero => exact conserves_done
  | succ count ih => exact (conserves_map hF hA address address flags).andThen (ih _)

theorem conserves_mapManagedMemory (hF : F.Lawful width) (hA : A.Correct width managed free)
    (extents : List Memory.Extent) :
    Conserves F width managed free root (mapManagedMemory (pageTable F A root) extents) := by
  induction extents with
  | nil => exact conserves_done
  | cons e rest ih => exact (conserves_mapIdentity hF hA _ _ _).andThen ih

theorem conserves_mapPlatformDevices (hF : F.Lawful width) (hA : A.Correct width managed free)
    (regions : List MmioRegion) :
    Conserves F width managed free root (mapPlatformDevices (pageTable F A root) regions) := by
  induction regions with
  | nil => exact conserves_done
  | cons region rest ih =>
    intro s T hT
    rw [mapPlatformDevices]
    split
    · exact ih s T hT
    · exact (conserves_mapIdentity hF hA _ _ _).andThen ih s T hT

theorem conserves_mapSystem (hF : F.Lawful width) (hA : A.Correct width managed free)
    (arch : Arch) :
    Conserves F width managed free root (mapSystem (pageTable F A root) P arch) := by
  have hkernel : Conserves F width managed free root (mapKernel (pageTable F A root) P) :=
    conserves_mapIdentity hF hA _ _ _
  have hdevices : Conserves F width managed free root
      (mapPlatformDevices (pageTable F A root) P.regions) :=
    conserves_mapPlatformDevices hF hA P.regions
  cases arch with
  | x8664 nxSupported =>
    exact (conserves_mapManagedMemory hF hA P.extents).andThen (hkernel.andThen hdevices)
  | arm64 => exact hkernel.andThen hdevices

/-! ## Refused programs -/

/-- What `load_elf` asks of the range of a segment. -/
def Elf64Segment.InRange (segment : Elf64Segment) : Prop :=
  ¬ (segment.memorySize = 0 ∨ segment.memorySize < segment.fileSize) ∧
    ¬ (addOverflow segment.virtualAddress segment.memorySize ∨
      userStackPage < segment.virtualAddress + segment.memorySize ∨
      segment.virtualAddress < pageSize)

/-- `load_elf` turns the image down before it takes a page: it is no program for the machine, it
has too many segments, its entry point is out of range or its first segment is. -/
def Refused (image : Bytes) (size machine : ℕ) : Prop :=
  (elf64Segments image size machine maxSegments).length = 0 ∨
    (elf64Segments image size machine maxSegments).length = maxSegments ∨
    elf64Entry image size machine = 0 ∨ userStackPage ≤ elf64Entry image size machine ∨
    ∃ segment ∈ (elf64Segments image size machine maxSegments).head?, ¬ segment.InRange

theorem loadSegment_of_not_inRange {σ : Type} (S : AddressSpace σ) {image : Bytes}
    {segment : Elf64Segment} (h : ¬ segment.InRange) (s : σ) :
    loadSegment S image segment s = (false, s) := by
  unfold loadSegment
  dsimp only
  split
  · rfl
  · rename_i hsizes
    rw [if_pos]
    by_contra hranges
    exact h ⟨hsizes, hranges⟩

theorem loadElf_of_refused {σ : Type} (S : AddressSpace σ) {image : Bytes} {size machine : ℕ}
    (h : Refused image size machine) (s : σ) : loadElf S image size machine s = (none, s) := by
  unfold loadElf
  dsimp only
  split
  · rfl
  rename_i hcount
  split
  · rfl
  rename_i hentry
  obtain hzero | hfull | hnone | hhigh | ⟨segment, hsegment, hrange⟩ := h
  · exact absurd (Or.inl hzero) hcount
  · exact absurd (Or.inr hfull) hcount
  · exact absurd (Or.inl hnone) hentry
  · exact absurd (Or.inr hhigh) hentry
  · -- the loop stops at the first segment
    cases hlist : elf64Segments image size machine maxSegments with
    | nil =>
      rw [hlist] at hsegment
      cases hsegment
    | cons first rest =>
      rw [hlist] at hsegment
      obtain rfl : first = segment := Option.some.inj hsegment
      rw [loadAll, loadSegment_of_not_inRange S hrange]

/-- The program is refused: its file cannot be read, or `load_elf` turns it down. -/
def Program.Refused (machine : ℕ) : Program → Prop
  | .mk none _ => True
  | .mk (some (image, size)) _ => User.Refused image size machine

variable {arch : Arch}

/-- A fresh page cannot be mapped when none is left; nothing is taken. -/
theorem mapFresh_exhausted (F : Format) (root : ℕ) (flags : PageFlags) (address : ℕ)
    (hA : A.Correct width managed free) {s : Machine α} (hnone : free s.pages = ∅) :
    ∃ s', mapFresh (pageTable F A root) flags address s = (false, s') ∧ s'.mem = s.mem ∧
      free s'.pages = free s.pages := by
  obtain ⟨hzero, hfree⟩ | ⟨hmem, -⟩ := hA.allocate s.pages
  · refine ⟨{ s with pages := (A.allocatePage s.pages).2 }, ?_, rfl, hfree⟩
    simp only [mapFresh, pageTable, hzero, if_true]
  · rw [hnone] at hmem
    cases hmem

theorem loadSegment_exhausted (hA : A.Correct width managed free) {image : Bytes}
    {segment : Elf64Segment} {s : Machine α} (hnone : free s.pages = ∅) :
    ∃ s', loadSegment (pageTable F A root) image segment s = (false, s') ∧ s'.mem = s.mem ∧
      free s'.pages = free s.pages := by
  by_cases hrange : segment.InRange
  · obtain ⟨hsizes, hranges⟩ := hrange
    have hcount := pageCount_eq (show 0 < segment.memorySize by omega)
    have hle : segment.virtualAddress / pageSize ≤
        (segment.virtualAddress + segment.memorySize - 1) / pageSize :=
      Nat.div_le_div_right (by omega)
    unfold loadSegment
    dsimp only
    rw [if_neg hsizes, if_neg hranges]
    -- there is at least one page to map
    obtain ⟨n, hn⟩ : ∃ n, (alignDown (segment.virtualAddress + segment.memorySize - 1) + pageSize -
        alignDown segment.virtualAddress) / pageSize = n + 1 :=
      ⟨_, (Nat.succ_pred_eq_of_pos (by omega)).symm⟩
    obtain ⟨s', hfresh, hmem, hfree⟩ := mapFresh_exhausted F root (flagsFor segment)
      (alignDown segment.virtualAddress) hA hnone
    rw [hn, mapPages, hfresh]
    exact ⟨s', rfl, hmem, hfree⟩
  · exact ⟨s, loadSegment_of_not_inRange _ hrange s, rfl, rfl⟩

/-- Without a page for the program, `load_elf` fails and takes nothing. -/
theorem loadElf_exhausted (F : Format) (root : ℕ) (image : Bytes) (size machine : ℕ)
    (hA : A.Correct width managed free) {s : Machine α} (hnone : free s.pages = ∅) :
    ∃ s', loadElf (pageTable F A root) image size machine s = (none, s') ∧ s'.mem = s.mem ∧
      free s'.pages = free s.pages := by
  unfold loadElf
  dsimp only
  split
  · exact ⟨s, rfl, rfl, rfl⟩
  rename_i hcount
  split
  · exact ⟨s, rfl, rfl, rfl⟩
  cases hlist : elf64Segments image size machine maxSegments with
  | nil => exact absurd (Or.inl (by rw [hlist]; rfl)) hcount
  | cons first rest =>
    obtain ⟨s', hfirst, hmem, hfree⟩ := loadSegment_exhausted hA hnone
    rw [loadAll, hfirst]
    exact ⟨s', rfl, hmem, hfree⟩

/-- Once the kernel's mappings are made, no page is left for the program. -/
def NoPageLeft (A : PageSource α) (P : Platform) (arch : Arch) (free : α → Finset ℕ)
    (s : Machine α) : Prop :=
  ∀ root sa sb, initializeTable A s = (root, sa) →
    mapSystem (pageTable arch.format A root) P arch sa = (true, sb) → free sb.pages = ∅

/-- Building an address space for which no page of the program is taken: it fails, and every page
that is no longer free is a table. -/
theorem construct_spares (hA : A.Correct arch.width managed free) {image : Bytes} {size : ℕ}
    {s : Machine α}
    (h : Refused image size arch.machine ∨ NoPageLeft A P arch free s) :
    (∃ s', construct A P arch image size s = (0, none, s') ∧ free s'.pages = free s.pages) ∨
      ∃ root s' T, construct A P arch image size s = (root, none, s') ∧
        Owned arch.format arch.width managed free root s' T ∧
        (free s'.pages : Set ℕ) ∪ T.pages = free s.pages := by
  have hF := arch.lawful
  unfold construct
  split
  rename_i root sa hinit
  obtain ⟨rfl, hfree⟩ | ⟨howned, hunion, -⟩ := initializeTable_spec (F := arch.format) hA hinit
  · exact Or.inl ⟨sa, if_pos rfl, hfree⟩
  right
  obtain ⟨T, hT, hwalks⟩ := conserves_mapSystem (P := P) hF hA arch sa _ howned
  rw [if_neg (howned.frame 3 0 root howned.root).2]
  split
  · rename_i sb hsystem
    rw [hsystem] at hT hwalks
    exact ⟨root, sb, T, rfl, hT, hwalks.union.trans hunion⟩
  · rename_i sb hsystem
    rw [hsystem] at hT hwalks
    -- the tables of the system stay, whichever way the loader fails
    rcases h with hrefused | hleft
    · exact ⟨root, sb, T, by rw [loadElf_of_refused _ hrefused], hT, hwalks.union.trans hunion⟩
    · obtain ⟨s', hload, hmem, hfree⟩ := loadElf_exhausted arch.format root image size
        arch.machine hA (hleft root sa sb hinit hsystem)
      refine ⟨root, s', T, by rw [hload], ⟨?_, ?_, hT.managed⟩, ?_⟩
      · rw [hmem]
        exact hT.toTree
      · rw [hfree]
        exact hT.apart
      · rw [hfree]
        exact hwalks.union.trans hunion

/-- A launch that takes no page for its program leaves the free pages as they were. -/
theorem launch_spares (hA : A.Correct arch.width managed free) {program : Program} {s : Machine α}
    (h : program.Refused arch.machine ∨ NoPageLeft A P arch free s) :
    free (launch A P arch program s).2.pages = free s.pages := by
  have hF := arch.lawful
  obtain ⟨_ | ⟨image, size⟩, executes⟩ := program
  · rw [launch]
  · obtain ⟨s', hconstruct, hfree⟩ | ⟨root, s', T, hconstruct, hT, hunion⟩ :=
      construct_spares hA (show User.Refused image size arch.machine ∨ _ from h)
    · rw [launch, hconstruct]
      dsimp only
      rw [destroy, if_pos rfl, hfree]
    · rw [launch, hconstruct]
      ext c
      rw [destroy_spec hF hA hT, hunion]
      rfl

/-- No launch of the sequence takes a page for its program. -/
def Spares (A : PageSource α) (P : Platform) (arch : Arch) (free : α → Finset ℕ) :
    List Program → Machine α → Prop
  | [], _ => True
  | program :: rest, s =>
    (program.Refused arch.machine ∨ NoPageLeft A P arch free s) ∧
      Spares A P arch free rest (launch A P arch program s).2

/-- **Launches that take no page for a program conserve the free pages.** In any sequence of
launches each of which finds its file unreadable, its image turned down before the first page is
taken for the program, or no page left for it, as many pages are free afterwards as before. -/
theorem launchAll_conserves (hA : A.Correct arch.width managed free) {programs : List Program}
    {s : Machine α} (h : Spares A P arch free programs s) :
    (free (launchAll A P arch programs s).pages).card = (free s.pages).card := by
  induction programs generalizing s with
  | nil => rw [launchAll]
  | cons program rest ih => rw [launchAll, ih h.2, launch_spares hA h.1]

/-! ## Programs that run -/

/-- **A program that runs costs pages for good**: on x86_64, after a program whose segments with
file contents are copied to their own pages only, fewer pages are free than before. -/
theorem launch_loses {nxSupported : Bool} (hA : A.Correct 52 managed free) (hP : P.Below (2 ^ 48))
    {image : Bytes} {size root : ℕ} {result : Image} {s s' : Machine α}
    (hinside : ∀ segment ∈ loadSegments image, segment.CopiedInside)
    (h : construct A P (.x8664 nxSupported) image size s = (root, some result, s')) :
    free (launch A P (.x8664 nxSupported) (.mk (some (image, size)) []) s).2.pages ⊂
      free s.pages := by
  have hF := x8664_lawful nxSupported
  obtain ⟨sa, sb, hroot, hinit, hsystem, hload⟩ := construct_eq_some h
  obtain ⟨g₀, g, hg, hunion⟩ := construct_system hA hP hroot hinit hsystem
  obtain ⟨g', ⟨T, hT, htables, hfree, -⟩, hext, -, -, -, p, hp, -⟩ :=
    loadElf_spec (pageTable_lawful hF hA root) (by decide) hg.rep hinside hload
  have hgrows := hg.grows.trans hext.grows
  have hafter : ∀ c, c ∈ free
      (launch A P (.x8664 nxSupported) (.mk (some (image, size)) []) s).2.pages
      ↔ c ∈ g'.free ∪ g'.tables := by
    intro c
    rw [launch, h, hfree, htables]
    dsimp only [launchAll]
    exact destroy_spec hF hA hT c
  have hbefore : ∀ c, c ∈ free s.pages ↔ c ∈ g₀.free ∪ g₀.tables := by
    intro c
    rw [hunion]
    rfl
  rw [Finset.ssubset_iff_of_subset]
  · -- the page of the stack is neither free nor a table
    refine ⟨p, (hbefore p).mpr (Or.inl (hg.grows.free hp.taken)), fun hmem => ?_⟩
    rcases (hafter p).mp hmem with hmem | hmem
    · exact hp.gone hmem
    · exact hp.notTable hmem
  · intro c hc
    rw [hbefore]
    rcases (hafter c).mp hc with hc | hc
    · exact Or.inl (hgrows.free hc)
    · rcases hgrows.tables hc with hc | ⟨hc, -⟩
      · exact Or.inr hc
      · exact Or.inl hc

end Conserves

/-! ## Launches on the small machine -/

theorem launchAll_conserves_refused :
    (Pool.free (launchAll (poolPages eightPages) smallPlatform (.x8664 true)
      [.mk none [], .mk (some (fun _ => 0, 64)) []] smallMachine).pages).card = 8 := by
  have hspares : Spares (poolPages eightPages) smallPlatform (.x8664 true) Pool.free
      [.mk none [], .mk (some (fun _ => 0, 64)) []] smallMachine :=
    ⟨Or.inl trivial, Or.inl (Or.inl (by decide)), trivial⟩
  exact (launchAll_conserves (poolPages_correct eightPages_valid) hspares).trans (by decide)

/-- After a program of one byte, fewer pages are free than before. -/
theorem launch_loses_pages :
    (launch (poolPages eightPages) smallPlatform (.x8664 true)
        (.mk (some (byteImage 0x1000, 121)) []) smallMachine).1 = true ∧
      (Pool.free (launch (poolPages eightPages) smallPlatform (.x8664 true)
        (.mk (some (byteImage 0x1000, 121)) []) smallMachine).2.pages).card <
      (Pool.free smallMachine.pages).card := by
  have hsegments : loadSegments (byteImage 0x1000) =
      [⟨120, 1, 0, 0x1000, 1, true, true, false⟩] := by decide
  have hspace : smallSpace 0x1000 = ((smallSpace 0x1000).1,
      some ⟨0x1000, userStackTop, userStackPage, 1⟩, (smallSpace 0x1000).2.2) :=
    Prod.ext rfl (Prod.ext (by decide +kernel) rfl)
  constructor
  · rw [launch, show construct (poolPages eightPages) smallPlatform (.x8664 true)
      (byteImage 0x1000) 121 smallMachine = _ from hspace]
  · exact Finset.card_lt_card (launch_loses (poolPages_correct eightPages_valid)
      smallPlatform_below (by rw [hsegments]; decide) hspace)

end ShirleysOS.User
