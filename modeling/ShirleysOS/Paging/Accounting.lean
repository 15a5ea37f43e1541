import ShirleysOS.Paging.Refinement

/-!
# Accounting for the pages of a page table

A page table takes pages for its tables only, and every page that it takes becomes a table, also
when a call fails half way. `destroy` walks the tables and gives each of them back once. To count
the calls of the allocator they are recorded: the record says which pages `allocate_page` handed
out and which pages `free_page` was called with.
-/

namespace ShirleysOS.Paging

open Lib
open Memory (pageSize)

/-- The calls of an allocator: the pages handed out, and those given back, newest first. -/
structure Record where
  allocated : List ℕ
  freed : List ℕ

/-- The allocator `A`, which records its calls; an `allocate_page` that fails hands out nothing. -/
def recorded {α : Type} (A : PageSource α) : PageSource (α × Record) where
  allocatePage s :=
    let allocated := A.allocatePage s.1
    (allocated.1, allocated.2,
      if allocated.1 = 0 then s.2 else { s.2 with allocated := allocated.1 :: s.2.allocated })
  freePage page s := (A.freePage page s.1, { s.2 with freed := page :: s.2.freed })

/-- `PageTable::destroy`: the object has no root any more. -/
def PageTable.destroy {α : Type} (F : Format) (A : PageSource α) (t : PageTable α) : PageTable α :=
  ⟨0, Paging.destroy F A t.root t.machine⟩

section Accounting

variable {α : Type} {F : Format} {A : PageSource α} {width root : ℕ} {managed : Set ℕ}
  {free : α → Finset ℕ}

/-- Recording makes no difference to the allocator. -/
theorem recorded_correct (hA : A.Correct width managed free) :
    (recorded A).Correct width managed fun s => free s.1 where
  frame := hA.frame
  inside s := hA.inside s.1
  allocate s := hA.allocate s.1
  freePage s := hA.freePage s.1

/-- Giving back a list of pages adds them to the record. -/
theorem foldl_freePage_recorded (freed : List ℕ) (s : α × Record) :
    (freed.foldl (fun s page => (recorded A).freePage page s) s).2 =
      { s.2 with freed := freed.reverse ++ s.2.freed } := by
  induction freed generalizing s with
  | nil => rfl
  | cons page freed ih =>
    rw [List.foldl_cons, ih, List.reverse_cons, List.append_assoc]
    rfl

/-! ## Only `allocate_page` touches the allocator -/

section Pages

variable {P : α → Prop} {s : Machine α}

theorem descend_pages (hP : ∀ a, P a → P (A.allocatePage a).2) (create : Bool) (table index : ℕ)
    (h : P s.pages) : P (descend F A create table index s).2.pages := by
  rw [descend]
  dsimp only
  split
  · split
    · exact h
    · split
      · exact hP _ h
      · exact hP _ h
  · split
    · exact h
    · exact h

theorem walk_pages (hP : ∀ a, P a → P (A.allocatePage a).2) (create : Bool) (address level p : ℕ)
    (h : P s.pages) : P (walk F A create address level p s).2.pages := by
  induction level generalizing p s with
  | zero => exact h
  | succ level ih =>
    have hdescend := descend_pages (F := F) hP create p (indexOf address (level + 1)) h
    rw [walk]
    split
    · rename_i heq
      rw [heq] at hdescend
      exact hdescend
    · rename_i heq
      rw [heq] at hdescend
      exact ih _ hdescend

theorem mapPage_pages (hP : ∀ a, P a → P (A.allocatePage a).2) (address physical : ℕ)
    (flags : PageFlags) (h : P s.pages) :
    P (mapPage F A root address physical flags s).2.pages := by
  have hwalk := walk_pages (F := F) hP true address 3 root h
  rw [mapPage]
  split
  · exact h
  split
  · exact h
  split
  · rename_i heq
    rw [heq] at hwalk
    exact hwalk
  · rename_i heq
    rw [heq] at hwalk
    exact hwalk

end Pages

theorem unmapPage_owned {s s' : Machine α} {T : Tables} (hF : F.Lawful width)
    (h : Owned F width managed free root s T) {address : ℕ} {ok : Bool}
    (hunmap : unmapPage F A root address s = (ok, s')) :
    Owned F width managed free root s' T ∧ s'.pages = s.pages := by
  have htop : T 3 (entryNumber 4 (address % 2 ^ 48)) = some root := by
    rw [entryNumber_root (Nat.mod_lt _ (by decide))]
    exact h.root
  rw [unmapPage, ← walk_mod (Nat.le_refl 3),
    walk_find hF h.toTree (address % 2 ^ 48) (Nat.le_refl 3) htop] at hunmap
  split at hunmap
  · obtain ⟨rfl, rfl⟩ := Prod.mk.inj hunmap
    exact ⟨h, rfl⟩
  split at hunmap
  · rename_i heq
    obtain ⟨-, rfl⟩ := Prod.mk.inj heq
    obtain ⟨rfl, rfl⟩ := Prod.mk.inj hunmap
    exact ⟨h, rfl⟩
  · rename_i table sa heq
    obtain ⟨htable, rfl⟩ := Prod.mk.inj heq
    split at hunmap
    · obtain ⟨rfl, rfl⟩ := Prod.mk.inj hunmap
      exact ⟨h, rfl⟩
    · obtain ⟨rfl, rfl⟩ := Prod.mk.inj hunmap
      exact ⟨⟨(h.store_leaf htable (indexOf_lt address 0)).1, h.apart, h.managed⟩, rfl⟩

/-! ## The account -/

/-- The record of an allocator whose free pages were `start` at first: a page that is not free any
more has been handed out, once, and none was given back. -/
structure Record.Balanced (free : α → Finset ℕ) (start : Finset ℕ) (s : α × Record) : Prop where
  mem : ∀ c, c ∈ s.2.allocated ↔ c ∈ start ∧ c ∉ free s.1
  start : free s.1 ⊆ start
  nodup : s.2.allocated.Nodup
  freed : s.2.freed = []

theorem Record.Balanced.allocatePage (hA : A.Correct width managed free) {start : Finset ℕ}
    (s : α × Record) (h : Record.Balanced free start s) :
    Record.Balanced free start ((recorded A).allocatePage s).2 := by
  rcases hA.allocate s.1 with ⟨hzero, hsame⟩ | ⟨hmem, herase⟩
  · refine ⟨fun c => ?_, ?_, ?_, ?_⟩ <;> simp only [recorded, hzero, if_true, hsame]
    · exact h.mem c
    · exact h.start
    · exact h.nodup
    · exact h.freed
  · have hne : (A.allocatePage s.1).1 ≠ 0 := (hA.frame _ (hA.inside s.1 _ hmem)).2
    have hnew : (A.allocatePage s.1).1 ∉ s.2.allocated := fun hin => ((h.mem _).mp hin).2 hmem
    refine ⟨fun c => ?_, ?_, ?_, ?_⟩ <;> simp only [recorded, hne, if_false, herase]
    · rw [List.mem_cons, h.mem, Finset.mem_erase]
      by_cases hc : c = (A.allocatePage s.1).1
      · simp only [hc, h.start hmem, true_or, ne_eq, not_true_eq_false, false_and,
          not_false_eq_true, and_self]
      · simp only [hc, false_or, ne_eq, not_false_eq_true, true_and]
    · exact (Finset.erase_subset _ _).trans h.start
    · exact List.nodup_cons.mpr ⟨hnew, h.nodup⟩
    · exact h.freed

/-- The pages that were handed out are the tables of the object. -/
def Accounted (F : Format) (width : ℕ) (managed : Set ℕ) (free : α → Finset ℕ)
    (start : Finset ℕ) (t : PageTable (α × Record)) : Prop :=
  Record.Balanced free start t.machine.pages ∧
    (t.root = 0 ∧ free t.machine.pages.1 = start ∨
      ∃ T, Owned F width managed (fun s => free s.1) t.root t.machine T ∧
        (free t.machine.pages.1 : Set ℕ) ∪ T.pages = start)

variable {start : Finset ℕ} {t t' : PageTable (α × Record)}

theorem Accounted.initializeTable (hA : A.Correct width managed free)
    (h : Accounted F width managed free start t) :
    Accounted F width managed free start
      (Call.perform F (recorded A) t .initializeTable).2 := by
  rw [Call.perform]
  by_cases hroot : t.root = 0
  · obtain ⟨hbalanced, ⟨-, hstart⟩ | ⟨T, hT, -⟩⟩ := h
    · rw [if_neg (not_not.mpr hroot)]
      have hnext := hbalanced.allocatePage hA
      have hpages : (Paging.initializeTable (recorded A) t.machine).2.pages =
          ((recorded A).allocatePage t.machine.pages).2 := by
        rw [Paging.initializeTable]
        split <;> rfl
      refine ⟨hpages ▸ hnext, ?_⟩
      rcases initializeTable_spec (F := F) (recorded_correct hA) (s := t.machine) rfl with
        ⟨hzero, hsame⟩ | ⟨howned, hunion, -⟩
      · exact Or.inl ⟨hzero, hsame.trans hstart⟩
      · exact Or.inr ⟨_, howned, hunion.trans (by rw [hstart])⟩
    · exact absurd hroot (hT.frame 3 0 t.root hT.root).2
  · rw [if_pos hroot]
    exact h

theorem Accounted.map (hF : F.Lawful width) (hA : A.Correct width managed free)
    (h : Accounted F width managed free start t) (address physical : ℕ) (flags : PageFlags) :
    Accounted F width managed free start
      (Call.perform F (recorded A) t (.map address physical flags)).2 := by
  obtain ⟨hbalanced, htables⟩ := h
  refine ⟨mapPage_pages (Record.Balanced.allocatePage hA) address physical flags hbalanced, ?_⟩
  rcases htables with ⟨hroot, hstart⟩ | ⟨T, hT, hunion⟩
  · left
    rw [Call.perform, mapPage, if_pos hroot]
    exact ⟨hroot, hstart⟩
  · obtain ⟨T', hT', hwalks, -⟩ := mapPage_spec hF (recorded_correct hA) hT
      (Eq.refl (mapPage F (recorded A) t.root address physical flags t.machine))
    exact Or.inr ⟨T', hT', hwalks.union.trans hunion⟩

theorem Accounted.unmap (hF : F.Lawful width) (h : Accounted F width managed free start t)
    (address : ℕ) :
    Accounted F width managed free start (Call.perform F (recorded A) t (.unmap address)).2 := by
  obtain ⟨hbalanced, ⟨hroot, hstart⟩ | ⟨T, hT, hunion⟩⟩ := h
  · rw [Call.perform, unmapPage, if_pos (Or.inl hroot)]
    exact ⟨hbalanced, Or.inl ⟨hroot, hstart⟩⟩
  · have hcall : unmapPage F (recorded A) t.root address t.machine =
        ((unmapPage F (recorded A) t.root address t.machine).1,
          (unmapPage F (recorded A) t.root address t.machine).2) := rfl
    obtain ⟨hT', hpages⟩ := unmapPage_owned hF hT hcall
    rw [Call.perform]
    dsimp only
    rw [Accounted, hpages]
    exact ⟨hbalanced, Or.inr ⟨T, hT', hunion⟩⟩

/-- **A run** keeps the account. -/
theorem Accounted.run (hF : F.Lawful width) (hA : A.Correct width managed free)
    (h : Accounted F width managed free start t) (calls : List Call) :
    Accounted F width managed free start (Paging.run F (recorded A) calls t).2 := by
  induction calls generalizing t with
  | nil => exact h
  | cons call calls ih =>
    apply ih
    cases call with
    | initializeTable => exact h.initializeTable hA
    | map address physical flags => exact h.map hF hA address physical flags
    | unmap address => exact h.unmap hF address

theorem Accounted.destroy (hF : F.Lawful width) (h : Accounted F width managed free start t) :
    (t.destroy F (recorded A)).machine.pages.2.allocated = t.machine.pages.2.allocated ∧
      (t.destroy F (recorded A)).machine.pages.2.freed.Perm t.machine.pages.2.allocated := by
  obtain ⟨hbalanced, ⟨hroot, hstart⟩ | ⟨T, hT, hunion⟩⟩ := h
  · -- There are no tables, and nothing was handed out.
    have hnone : t.machine.pages.2.allocated = [] := by
      refine List.eq_nil_iff_forall_not_mem.mpr fun c hc => ?_
      obtain ⟨hc, hnot⟩ := (hbalanced.mem c).mp hc
      exact hnot (hstart ▸ hc)
    rw [PageTable.destroy, Paging.destroy, if_pos hroot, hnone, hbalanced.freed]
    exact ⟨rfl, List.Perm.refl []⟩
  · have hroot : t.root ≠ 0 := (hT.frame 3 0 t.root hT.root).2
    rw [PageTable.destroy, Paging.destroy, if_neg hroot]
    dsimp only
    rw [freeLevel_eq_foldl, foldl_freePage_recorded]
    dsimp only
    rw [hbalanced.freed, List.append_nil]
    refine ⟨rfl, (List.reverse_perm _).trans ?_⟩
    refine (List.perm_ext_iff_of_nodup (freedPages_nodup hF hT.toTree hT.root)
      hbalanced.nodup).mpr fun c => ?_
    rw [mem_freedPages hF hT.toTree hT.root, hT.below_root, hbalanced.mem, ← Finset.mem_coe,
      ← hunion]
    constructor
    · exact fun hc => ⟨Or.inr hc, hT.apart c hc⟩
    · rintro ⟨hc | hc, hnot⟩
      · exact absurd hc hnot
      · exact hc

/-- **Teardown frees what was allocated.** After any calls of a new page table, over an allocator
that records its calls, no page has been given back; `destroy` then calls `free_page` once for each
page that the table was handed out and for no other, and a second `destroy` changes nothing. -/
theorem destroy_frees (hF : Supported F width) (hA : A.Correct width managed free) (m : Mem)
    (a : α) (calls : List Call) :
    let t := (run F (recorded A) calls ⟨0, m, a, [], []⟩).2
    let destroyed := t.destroy F (recorded A)
    t.machine.pages.2.freed = [] ∧
      t.machine.pages.2.allocated.Nodup ∧
      destroyed.machine.pages.2.allocated = t.machine.pages.2.allocated ∧
      destroyed.machine.pages.2.freed.Perm t.machine.pages.2.allocated ∧
      destroyed.destroy F (recorded A) = destroyed := by
  have hnew : Accounted F width managed free (free a) ⟨0, m, a, [], []⟩ := by
    refine ⟨⟨fun c => ?_, Finset.Subset.refl _, List.nodup_nil, rfl⟩, Or.inl ⟨rfl, rfl⟩⟩
    exact iff_of_false List.not_mem_nil fun hc => hc.2 hc.1
  have hrun := hnew.run hF.lawful hA calls
  obtain ⟨hallocated, hfreed⟩ := hrun.destroy (A := A) hF.lawful
  exact ⟨hrun.1.freed, hrun.1.nodup, hallocated, hfreed, rfl⟩

/-- The four pages of the example are all taken by a run whose last call fails, and given back. -/
theorem destroy_frees_fourPages :
    ((run arm64 (recorded fourPages) (.initializeTable :: farCalls)
      ⟨0, fun _ => 0, 15, [], []⟩).2.destroy arm64 (recorded fourPages)).machine.pages.2.freed.Perm
        [0x4000, 0x3000, 0x2000, 0x1000] := by
  obtain ⟨-, -, -, hfreed, -⟩ := destroy_frees .arm64 fourPages_correct (fun _ => 0) 15
    (.initializeTable :: farCalls)
  refine hfreed.trans (List.Perm.of_eq ?_)
  decide +kernel

end Accounting

end ShirleysOS.Paging
