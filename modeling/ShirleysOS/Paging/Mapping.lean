import Mathlib.Data.Finset.Insert
import Mathlib.Data.Set.Finite.Basic
import ShirleysOS.Paging.Tree

/-!
# Page tables are address spaces

A walk through the tables takes missing tables from the page allocator. Whatever it takes becomes
a table, also when the walk stops half way, so the free pages and the tables together stay the
same set. Over a correct allocator a page table is therefore a lawful address space.
-/

namespace ShirleysOS.Paging

open Lib
open Memory (pageSize)

/-- A correct page allocator: `free` are the pages it may hand out, all of them of `managed`. A
page that is handed out is free no more, and one that is given back is free again. -/
structure PageSource.Correct {α : Type} (A : PageSource α) (width : ℕ) (managed : Set ℕ)
    (free : α → Finset ℕ) : Prop where
  frame : ∀ p ∈ managed, ValidFrame width p ∧ p ≠ 0
  inside : ∀ a, ∀ p ∈ free a, p ∈ managed
  allocate : ∀ a, (A.allocatePage a).1 = 0 ∧ free (A.allocatePage a).2 = free a ∨
    (A.allocatePage a).1 ∈ free a ∧
      free (A.allocatePage a).2 = (free a).erase (A.allocatePage a).1
  freePage : ∀ a, ∀ p ∈ managed, p ∉ free a → free (A.freePage p a) = insert p (free a)

section Walk

variable {α : Type} {F : Format} {A : PageSource α} {width root : ℕ} {managed : Set ℕ}
  {free : α → Finset ℕ} {s s' s'' : Machine α} {T T' T'' : Tables}

/-- The tables are in memory, and none of their pages is free. -/
structure Owned (F : Format) (width : ℕ) (managed : Set ℕ) (free : α → Finset ℕ) (root : ℕ)
    (s : Machine α) (T : Tables) : Prop extends Tree F width s.mem root T where
  apart : ∀ p ∈ T.pages, p ∉ free s.pages
  managed : ∀ p ∈ T.pages, p ∈ managed

/-- What changes between two states of an address space, the entries of the last level apart:
tables are added, and they are the pages that are no longer free. -/
structure Walks (free : α → Finset ℕ) (s : Machine α) (T : Tables) (s' : Machine α) (T' : Tables) :
    Prop where
  keep : ∀ level q p, T level q = some p → T' level q = some p
  union : (free s'.pages : Set ℕ) ∪ T'.pages = (free s.pages : Set ℕ) ∪ T.pages
  free : free s'.pages ⊆ free s.pages
  frame : ∀ x, pageOf x ∉ T'.pages → s'.mem x = s.mem x

theorem Walks.refl : Walks free s T s T :=
  ⟨fun _ _ _ h => h, rfl, Finset.Subset.refl _, fun _ _ => rfl⟩

theorem Walks.pages (h : Walks free s T s' T') : T.pages ⊆ T'.pages := by
  rintro p ⟨level, q, hp⟩
  exact ⟨level, q, h.keep level q p hp⟩

theorem Walks.trans (h : Walks free s T s' T') (h' : Walks free s' T' s'' T'') :
    Walks free s T s'' T'' where
  keep level q p hp := h'.keep level q p (h.keep level q p hp)
  union := h'.union.trans h.union
  free := h'.free.trans h.free
  frame x hx := (h'.frame x hx).trans (h.frame x fun hp => hx (h'.pages hp))

/-! ## One level down -/

/-- `descend` finds the table, or no page is left for it, or a new one is added. -/
theorem descend_spec (hF : F.Lawful width) (hA : A.Correct width managed free)
    (h : Owned F width managed free root s T) {level q p i : ℕ}
    (hp : T (level + 1) q = some p) (hi : i < 512) {next : Option ℕ}
    (hdescend : descend F A true p i s = (next, s')) :
    ∃ T', Owned F width managed free root s' T' ∧ Walks free s T s' T' ∧
      T'.leaf s'.mem = T.leaf s.mem ∧ ∀ c, next = some c → T' level (512 * q + i) = some c := by
  have hentry := h.entry level q p i hp hi
  unfold descend at hdescend
  dsimp only at hdescend
  rw [hentry] at hdescend
  cases hnext : T level (512 * q + i) with
  | some c =>
    -- the table is there
    obtain ⟨hpresent, hlarge, -, haddress, -⟩ := hF.table c (h.frame _ _ c hnext).1
    simp only [hnext, hpresent, hlarge, haddress, Bool.not_true, Bool.false_eq_true, if_false]
      at hdescend
    obtain ⟨rfl, rfl⟩ := Prod.mk.inj hdescend
    refine ⟨T, h, Walks.refl, rfl, fun c' hc' => ?_⟩
    rw [hnext, hc']
  | none =>
    simp only [hnext, hF.empty, Bool.not_false, Bool.not_true, Bool.false_eq_true, if_true,
      if_false] at hdescend
    rcases hA.allocate s.pages with ⟨hzero, hfree⟩ | ⟨hmem, hfree⟩
    · -- no page is left
      rw [if_pos hzero] at hdescend
      obtain ⟨rfl, rfl⟩ := Prod.mk.inj hdescend
      refine ⟨T, ⟨h.toTree, fun p hp => ?_, h.managed⟩, ⟨fun _ _ _ h => h, ?_, ?_, fun _ _ => rfl⟩,
        rfl, fun c hc => nomatch hc⟩
      · rw [hfree]
        exact h.apart p hp
      · rw [hfree]
      · rw [hfree]
    · -- a fresh page becomes the table
      set c := (A.allocatePage s.pages).1
      obtain ⟨hframe, hne⟩ := hA.frame c (hA.inside s.pages c hmem)
      rw [if_neg hne, (hF.table c hframe).2.2.2.1] at hdescend
      obtain ⟨rfl, rfl⟩ := Prod.mk.inj hdescend
      have hnew : c ∉ T.pages := fun hc => h.apart c hc hmem
      have hpages := Tables.pages_add (p := c) hnext
      refine ⟨T.add level (512 * q + i) c,
        ⟨h.toTree.add hF hp hi hnext hframe hne hnew, fun b hb => ?_, fun b hb => ?_⟩,
        ⟨fun level' q' b hb => ?_, ?_, ?_, fun x hx => ?_⟩,
        h.toTree.leaf_add hp hi hnext hframe hnew, fun c' hc' => ?_⟩
      · rw [hpages] at hb
        rw [hfree]
        rcases hb with rfl | hb
        · exact Finset.notMem_erase _ _
        · exact fun hmem => h.apart b hb (Finset.mem_of_mem_erase hmem)
      · rw [hpages] at hb
        rcases hb with rfl | hb
        · exact hA.inside s.pages _ hmem
        · exact h.managed b hb
      · rw [Tables.add_of_ne, hb]
        rintro ⟨rfl, rfl⟩
        rw [hnext] at hb
        cases hb
      · rw [hpages, hfree, Finset.coe_erase, Set.union_insert, ← Set.insert_union,
          Set.insert_sdiff_singleton, Set.insert_eq_of_mem hmem]
      · rw [hfree]
        exact Finset.erase_subset c _
      · rw [hpages] at hx
        obtain ⟨hxc, hxT⟩ := not_or.mp hx
        dsimp only
        rw [store_slot_of_ne (h.dvd hp) hi fun heq => hxT (heq ▸ Tables.mem_pages hp),
          clearPage_of_ne hframe.dvd hxc]
      · rw [Tables.add_self, hc']

/-! ## Down to the last level -/

theorem walk_spec (hF : F.Lawful width) (hA : A.Correct width managed free)
    (h : Owned F width managed free root s T) {address level p : ℕ}
    (hp : T level (entryNumber (level + 1) address) = some p) {table : Option ℕ}
    (hwalk : walk F A true address level p s = (table, s')) :
    ∃ T', Owned F width managed free root s' T' ∧ Walks free s T s' T' ∧
      T'.leaf s'.mem = T.leaf s.mem ∧
      ∀ c, table = some c → T' 0 (entryNumber 1 address) = some c := by
  induction level generalizing p s T with
  | zero =>
    obtain ⟨rfl, rfl⟩ := Prod.mk.inj hwalk
    exact ⟨T, h, Walks.refl, rfl, fun c hc => by rw [hp, hc]⟩
  | succ level ih =>
    rw [walk] at hwalk
    split at hwalk
    · rename_i sa hdescend
      obtain ⟨rfl, rfl⟩ := Prod.mk.inj hwalk
      obtain ⟨Ta, hTa, hwalks, hleaf, -⟩ := descend_spec hF hA h hp (indexOf_lt _ _) hdescend
      exact ⟨Ta, hTa, hwalks, hleaf, fun c hc => nomatch hc⟩
    · rename_i next sa hdescend
      obtain ⟨Ta, hTa, hwalks, hleaf, hnext⟩ := descend_spec hF hA h hp (indexOf_lt _ _) hdescend
      have hbelow := hnext next rfl
      rw [entryNumber_eq] at hbelow
      obtain ⟨T', hT', hwalks', hleaf', htable⟩ := ih hTa hbelow hwalk
      exact ⟨T', hT', hwalks.trans hwalks', hleaf'.trans hleaf, htable⟩

theorem walk_mod {level p : ℕ} (hlevel : level ≤ 3) (address : ℕ) (create : Bool)
    (s : Machine α) :
    walk F A create (address % 2 ^ 48) level p s = walk F A create address level p s := by
  induction level generalizing p s with
  | zero => rfl
  | succ level ih =>
    rw [walk, walk, indexOf_mod hlevel]
    split
    · rfl
    · exact ih (by omega) _

/-- `map` changes one entry of the last level; a failed one changes none. Every page that is taken
becomes a table, whatever is mapped where. -/
theorem mapPage_spec (hF : F.Lawful width) (hA : A.Correct width managed free)
    (h : Owned F width managed free root s T) {address physical : ℕ} {flags : PageFlags} {ok : Bool}
    (hmap : mapPage F A root address physical flags s = (ok, s')) :
    ∃ T', Owned F width managed free root s' T' ∧ Walks free s T s' T' ∧
      (ValidFrame width physical →
        T'.leaf s'.mem =
          if ok then
            Function.update (T.leaf s.mem) (address % 2 ^ 48 / pageSize)
              (F.pageEntry physical flags)
          else T.leaf s.mem) := by
  have hroot : root ≠ 0 := (h.frame 3 0 root h.root).2
  have htop : T 3 (entryNumber 4 (address % 2 ^ 48)) = some root := by
    rw [entryNumber_root (Nat.mod_lt _ (by decide))]
    exact h.root
  rw [mapPage, if_neg hroot, ← walk_mod (Nat.le_refl 3), ← indexOf_mod (Nat.zero_le 3)] at hmap
  split at hmap
  · obtain ⟨rfl, rfl⟩ := Prod.mk.inj hmap
    exact ⟨T, h, Walks.refl, fun _ => rfl⟩
  split at hmap
  · rename_i sa hwalk
    obtain ⟨rfl, rfl⟩ := Prod.mk.inj hmap
    obtain ⟨Ta, hTa, hwalks, hleaf, -⟩ := walk_spec hF hA h htop hwalk
    exact ⟨Ta, hTa, hwalks, fun _ => hleaf⟩
  · rename_i table sa hwalk
    obtain ⟨rfl, rfl⟩ := Prod.mk.inj hmap
    obtain ⟨T', hT', hwalks, hleaf, htable⟩ := walk_spec hF hA h htop hwalk
    have hp : T' 0 (entryNumber 1 (address % 2 ^ 48)) = some table := htable table rfl
    -- the walk has left the table of the entry, and the store is in it
    obtain ⟨htree, hstored⟩ := hT'.store_leaf hp (indexOf_lt (address % 2 ^ 48) 0)
    rw [entryNumber_eq, entryNumber_zero, hleaf] at hstored
    refine ⟨T', ⟨htree, hT'.apart, hT'.managed⟩, ⟨hwalks.keep, hwalks.union, hwalks.free,
      fun x hx => ?_⟩, fun hphysical => hstored (hF.page physical flags hphysical).2.2⟩
    rw [← hwalks.frame x hx]
    exact store_slot_of_ne (hT'.dvd hp) (indexOf_lt _ 0) fun heq =>
      hx (heq ▸ Tables.mem_pages hp)

/-! ## The address space -/

/-- The address space of the page table with the given root. -/
def pageTable (F : Format) (A : PageSource α) (root : ℕ) : AddressSpace (Machine α) where
  map := mapPage F A root
  translate s address := translate F s.mem root address
  allocatePage s := ((A.allocatePage s.pages).1, { s with pages := (A.allocatePage s.pages).2 })
  mem := Machine.mem
  setMem m s := { s with mem := m }

/-- A page table stands for the map that the entries of its last level give. -/
def PageTableRep (F : Format) (width : ℕ) (managed : Set ℕ) (free : α → Finset ℕ) (root : ℕ)
    (g : Layout) (s : Machine α) : Prop :=
  ∃ T, Owned F width managed free root s T ∧ g.tables = T.pages ∧ g.free = free s.pages ∧
    ∀ v, match g.pages v with
      | none => T.leaf s.mem v = 0
      | some (p, flags) => T.leaf s.mem v = F.pageEntry p flags ∧ ValidFrame width p

/-- **A page table is a lawful address space** on the addresses of 48 bits. -/
theorem pageTable_lawful (hF : F.Lawful width) (hA : A.Correct width managed free) (root : ℕ) :
    (pageTable F A root).Lawful (ValidFrame width) (2 ^ 48)
      (PageTableRep F width managed free root) where
  dvd p hp := hp.dvd
  free := by
    rintro g s ⟨T, hT, htables, hfree, -⟩ p hp
    rw [hfree] at hp
    obtain ⟨hframe, hne⟩ := hA.frame p (hA.inside s.pages p hp)
    exact ⟨hframe, hne, fun hmem => hT.apart p (htables ▸ hmem) hp⟩
  allocate := by
    rintro g s page s' ⟨T, hT, htables, hfree, hpages⟩ heq
    obtain ⟨rfl, rfl⟩ := Prod.mk.inj heq
    refine ⟨rfl, ?_⟩
    rcases hA.allocate s.pages with ⟨hzero, hsame⟩ | ⟨hmem, herase⟩
    · refine Or.inl ⟨hzero, T, ⟨hT.toTree, fun p hp => ?_, hT.managed⟩, htables, ?_, hpages⟩
      · rw [hsame]
        exact hT.apart p hp
      · rw [hsame]
        exact hfree
    · refine Or.inr ⟨hfree ▸ hmem, T, ⟨hT.toTree, fun p hp hfree' => ?_, hT.managed⟩, htables, ?_,
        hpages⟩
      · rw [herase] at hfree'
        exact hT.apart p hp (Finset.mem_of_mem_erase hfree')
      · rw [Layout.take, hfree, herase, Finset.coe_erase]
  map := by
    rintro g s address frame flags ok s' ⟨T, hT, htables, hfree, hpages⟩ _ hlimit hframe hmap
    obtain ⟨T', hT', hwalks, hleaf⟩ := mapPage_spec hF hA hT hmap
    have hleaf := hleaf hframe
    rw [Nat.mod_eq_of_lt hlimit] at hleaf
    refine ⟨⟨if ok then g.mapped (address / pageSize) frame flags else g.pages, T'.pages,
      free s'.pages⟩, ⟨T', hT', rfl, rfl, fun v => ?_⟩, ⟨?_, ?_, ?_⟩, rfl, hwalks.frame⟩
    · rw [hleaf]
      cases ok with
      | false => exact hpages v
      | true =>
        simp only [if_true, Layout.mapped]
        by_cases hv : v = address / pageSize
        · rw [hv, Function.update_self, Function.update_self]
          exact ⟨rfl, hframe⟩
        · rw [Function.update_of_ne hv, Function.update_of_ne hv]
          exact hpages v
    · rw [hfree]
      exact Finset.coe_subset.mpr hwalks.free
    · rw [htables]
      exact hwalks.pages
    · -- what is a table now was one before, or was free
      intro p hp
      have hmem : p ∈ (free s.pages : Set ℕ) ∪ T.pages := hwalks.union ▸ Or.inr hp
      rw [htables, hfree]
      rcases hmem with hmem | hmem
      · exact Or.inr ⟨hmem, hT'.apart p hp⟩
      · exact Or.inl hmem
  translate := by
    rintro g s address ⟨T, hT, -, -, hpages⟩ hlimit
    have hentry := hpages (address / pageSize)
    rw [show (pageTable F A root).translate s address = translate F s.mem root address from rfl,
      translate_eq hF hT.toTree hlimit, Layout.translate]
    cases hpage : g.pages (address / pageSize) with
    | none =>
      rw [hpage] at hentry
      simp [hentry, hF.empty]
    | some entry =>
      obtain ⟨p, flags⟩ := entry
      rw [hpage] at hentry
      obtain ⟨hleaf, hframe⟩ := hentry
      obtain ⟨hpresent, haddress, -⟩ := hF.page p flags hframe
      rw [hleaf, hpresent, haddress, if_pos rfl]
      -- the offset fills bits that are zero in the address of the page
      obtain ⟨q, rfl⟩ := hframe.dvd
      exact (Nat.two_pow_add_eq_or_of_lt (i := 12) (mod_pageSize_lt address) q).symm
  setMem := by
    rintro g s m ⟨T, hT, htables, hfree, hpages⟩ hm
    rw [htables] at hm
    have hleaf : T.leaf m = T.leaf s.mem := hT.toTree.leaf_congr hm
    refine ⟨⟨T, ⟨hT.toTree.congr hm, hT.apart, hT.managed⟩, htables, hfree, fun v => ?_⟩, rfl⟩
    rw [show ((pageTable F A root).setMem m s).mem = m from rfl, hleaf]
    exact hpages v

end Walk

end ShirleysOS.Paging
