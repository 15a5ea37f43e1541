import Mathlib.Data.Set.Disjoint
import Mathlib.Data.Set.Insert
import ShirleysOS.Paging.PageTable

/-!
# Address spaces

The loader works on any address space: it maps pages, translates addresses, takes pages from the
allocator and writes physical memory. The state of all of these is one state here, because an
address space may itself live in pages of the allocator. A layout says what such a state stands
for: a finite map of pages, the pages the address space keeps for itself, and those that are free.
Source: `include/shirley/address_space.hpp`.
-/

namespace ShirleysOS.Paging

open Lib
open Memory (pageSize)

/-- An `AddressSpace` with the page allocator and physical memory. -/
structure AddressSpace (σ : Type) where
  map : ℕ → ℕ → PageFlags → σ → Bool × σ
  /-- 0 where nothing is mapped. -/
  translate : σ → ℕ → ℕ
  /-- 0 when no page is left. -/
  allocatePage : σ → ℕ × σ
  mem : σ → Mem
  setMem : Mem → σ → σ

/-- The page that an address lies in. -/
def pageOf (address : ℕ) : ℕ := address - address % pageSize

/-- What a state stands for: the frame and the flags of every virtual page (by its number), the
pages that hold the address space itself, and the free pages. -/
structure Layout where
  pages : ℕ → Option (ℕ × PageFlags)
  tables : Set ℕ
  free : Set ℕ

namespace Layout

/-- The page `page` is handed out. -/
def take (g : Layout) (page : ℕ) : Layout := { g with free := g.free \ {page} }

/-- The virtual page `number` is mapped. -/
def mapped (g : Layout) (number frame : ℕ) (flags : PageFlags) : ℕ → Option (ℕ × PageFlags) :=
  Function.update g.pages number (some (frame, flags))

/-- The physical address that the page map gives. -/
def translate (g : Layout) (address : ℕ) : ℕ :=
  match g.pages (address / pageSize) with
  | none => 0
  | some (frame, _) => frame + address % pageSize

/-- From one layout to a later one: pages are handed out, and the address space takes some of them
for itself. -/
structure Grows (g g' : Layout) : Prop where
  free : g'.free ⊆ g.free
  keep : g.tables ⊆ g'.tables
  tables : g'.tables ⊆ g.tables ∪ (g.free \ g'.free)

variable {g g' g'' : Layout} {page : ℕ}

theorem Grows.of_eq (hfree : g'.free = g.free) (htables : g'.tables = g.tables) : g.Grows g' :=
  ⟨hfree.subset, htables.symm.subset, htables.subset.trans Set.subset_union_left⟩

theorem Grows.trans (h : g.Grows g') (h' : g'.Grows g'') : g.Grows g'' where
  free := h'.free.trans h.free
  keep := h.keep.trans h'.keep
  tables p hp := by
    rcases h'.tables hp with hp | ⟨hfree, hgone⟩
    · rcases h.tables hp with hp | ⟨hfree, hgone⟩
      · exact Or.inl hp
      · exact Or.inr ⟨hfree, fun hp => hgone (h'.free hp)⟩
    · exact Or.inr ⟨h.free hfree, hgone⟩

theorem Grows.take (g : Layout) (page : ℕ) : g.Grows (g.take page) :=
  ⟨Set.sdiff_subset, Set.Subset.rfl, Set.subset_union_left⟩

/-- A page that is neither free nor the address space's own stays so. -/
theorem Grows.not_mem (h : g.Grows g') (hfree : page ∉ g.free) (htable : page ∉ g.tables) :
    page ∉ g'.free ∧ page ∉ g'.tables := by
  refine ⟨fun hp => hfree (h.free hp), fun hp => ?_⟩
  rcases h.tables hp with hp | ⟨hp, -⟩
  · exact htable hp
  · exact hfree hp

end Layout

/-- `map` and `translate` behave as a finite page map on the addresses below `limit`, and the
allocator returns fresh pages. `Rep` says which layouts a state may stand for, `Frame` which pages
may be mapped. -/
structure AddressSpace.Lawful {σ : Type} (S : AddressSpace σ) (Frame : ℕ → Prop) (limit : ℕ)
    (Rep : Layout → σ → Prop) : Prop where
  dvd : ∀ p, Frame p → pageSize ∣ p
  free : ∀ g s, Rep g s → ∀ p ∈ g.free, Frame p ∧ p ≠ 0 ∧ p ∉ g.tables
  allocate : ∀ g s page s', Rep g s → S.allocatePage s = (page, s') →
    S.mem s' = S.mem s ∧ (page = 0 ∧ Rep g s' ∨ page ∈ g.free ∧ Rep (g.take page) s')
  map : ∀ g s address frame flags ok s', Rep g s → pageSize ∣ address → address < limit →
    Frame frame → S.map address frame flags s = (ok, s') →
      ∃ g', Rep g' s' ∧ g.Grows g' ∧
        g'.pages = (if ok then g.mapped (address / pageSize) frame flags else g.pages) ∧
        ∀ x, pageOf x ∉ g'.tables → S.mem s' x = S.mem s x
  translate : ∀ g s address, Rep g s → address < limit →
    S.translate s address = g.translate address
  setMem : ∀ g s m, Rep g s → (∀ x, pageOf x ∈ g.tables → m x = S.mem s x) →
    Rep g (S.setMem m s) ∧ S.mem (S.setMem m s) = m

/-! ## Addresses and their pages -/

theorem pageOf_add {page j : ℕ} (h : pageSize ∣ page) (hj : j < pageSize) :
    pageOf (page + j) = page := by
  obtain ⟨q, rfl⟩ := h
  rw [pageOf, Nat.mul_add_mod, Nat.mod_eq_of_lt hj, Nat.add_sub_cancel]

theorem mod_pageSize_lt (x : ℕ) : x % pageSize < pageSize := Nat.mod_lt x (by decide)

theorem clearPage_apply {m : Mem} {page j : ℕ} (hj : j < pageSize) :
    clearPage m page (page + j) = 0 :=
  Bytes.splice_add hj

theorem clearPage_of_ne {m : Mem} {page x : ℕ} (hpage : pageSize ∣ page) (h : pageOf x ≠ page) :
    clearPage m page x = m x := by
  unfold clearPage
  apply Bytes.splice_outside
  by_contra hin
  apply h
  rw [show x = page + (x - page) by omega]
  exact pageOf_add hpage (by omega)

/-! ## A page map and nothing more -/

/-- A page map with a list of free pages; nothing of it lies in the memory. -/
structure FlatSpace where
  pages : ℕ → Option (ℕ × PageFlags)
  free : List ℕ
  mem : Mem

/-- The address space of a `FlatSpace`; the pages are handed out from the head of the list. -/
def flatSpace : AddressSpace FlatSpace where
  map address frame flags s :=
    (true, { s with
      pages := Function.update s.pages (address / pageSize) (some (frame, flags)) })
  translate s address :=
    match s.pages (address / pageSize) with
    | none => 0
    | some (frame, _) => frame + address % pageSize
  allocatePage s :=
    match s.free with
    | [] => (0, s)
    | page :: rest => (page, { s with free := rest })
  mem := FlatSpace.mem
  setMem m s := { s with mem := m }

/-- A flat space stands for its own map. -/
structure FlatSpace.Rep (g : Layout) (s : FlatSpace) : Prop where
  pages : g.pages = s.pages
  tables : g.tables = ∅
  free : g.free = {p | p ∈ s.free}
  nodup : s.free.Nodup
  frames : ∀ p ∈ s.free, pageSize ∣ p ∧ p ≠ 0

theorem flatSpace_lawful (limit : ℕ) :
    flatSpace.Lawful (fun p => pageSize ∣ p) limit FlatSpace.Rep where
  dvd p hp := hp
  free g s h p hp := by
    rw [h.free] at hp
    exact ⟨(h.frames p hp).1, (h.frames p hp).2, by simp [h.tables]⟩
  allocate g s page s' h heq := by
    obtain ⟨pages, free, mem⟩ := s
    cases free with
    | nil =>
      obtain ⟨rfl, rfl⟩ := Prod.mk.inj heq
      exact ⟨rfl, Or.inl ⟨rfl, h⟩⟩
    | cons p rest =>
      obtain ⟨rfl, rfl⟩ := Prod.mk.inj heq
      have hnodup := List.nodup_cons.mp h.nodup
      refine ⟨rfl, Or.inr ⟨by simp [h.free], h.pages, h.tables, ?_, hnodup.2, fun q hq =>
        h.frames q (List.mem_cons_of_mem p hq)⟩⟩
      -- what is left of the list are the free pages without its head
      ext q
      simp only [Layout.take, h.free, List.mem_cons, Set.mem_sdiff, Set.mem_ofPred_eq,
        Set.mem_singleton_iff]
      constructor
      · rintro ⟨hq | hq, hne⟩
        · exact absurd hq hne
        · exact hq
      · intro hq
        exact ⟨Or.inr hq, fun heq => hnodup.1 (heq ▸ hq)⟩
  map g s address frame flags ok s' h _ _ _ heq := by
    obtain ⟨rfl, rfl⟩ := Prod.mk.inj heq
    refine ⟨{ g with pages := g.mapped (address / pageSize) frame flags }, ?_,
      Layout.Grows.of_eq rfl rfl, rfl, fun _ _ => rfl⟩
    exact ⟨by simp [Layout.mapped, h.pages], h.tables, h.free, h.nodup, h.frames⟩
  translate g s address h _ := by
    unfold Layout.translate
    rw [h.pages]
    rfl
  setMem g s m h _ := ⟨⟨h.pages, h.tables, h.free, h.nodup, h.frames⟩, rfl⟩

end ShirleysOS.Paging
