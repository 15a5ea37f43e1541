import ShirleysOS.Paging.Teardown

/-!
# A page table is a finite map

A `PageTable` object has a root, 0 until it is initialized. Over any allocator that hands out
fresh pages, or none, the calls of `map` and `unmap` have the effect they would have on a finite
map from page numbers to frames: what is translated is what was mapped last and not unmapped
since. A call that fails has no effect, also when the walk has added tables before it ran out of
pages: an added table has no entries of the last level.
-/

namespace ShirleysOS.Paging

open Lib
open Memory (pageSize)

/-- A `PageTable` object, with physical memory and the page allocator. -/
structure PageTable (α : Type) where
  root : ℕ
  machine : Machine α

/-- The calls that change a `PageTable`. -/
inductive Call
  | initializeTable
  | map (address physical : ℕ) (flags : PageFlags)
  | unmap (address : ℕ)

/-- The formats of the two architectures, with the width of the frames that they hold. -/
inductive Supported : Format → ℕ → Prop
  | x8664 (nxSupported : Bool) : Supported (x8664 nxSupported) 52
  | arm64 : Supported arm64 48

theorem Supported.lawful {F : Format} {width : ℕ} (h : Supported F width) : F.Lawful width := by
  cases h with
  | x8664 nxSupported => exact x8664_lawful nxSupported
  | arm64 => exact arm64_lawful

theorem Supported.le {F : Format} {width : ℕ} (h : Supported F width) : 48 ≤ width := by
  cases h with
  | x8664 nxSupported => decide
  | arm64 => exact Nat.le_refl 48

section Calls

variable {α : Type} (F : Format) (A : PageSource α)

/-- One call, and what it returns. An object that has a root is not initialized again. -/
def Call.perform (t : PageTable α) : Call → Bool × PageTable α
  | .initializeTable =>
    if t.root ≠ 0 then (true, t)
    else
      let made := Paging.initializeTable A t.machine
      (made.1 != 0, ⟨made.1, made.2⟩)
  | .map address physical flags =>
    let mapped := mapPage F A t.root address physical flags t.machine
    (mapped.1, ⟨t.root, mapped.2⟩)
  | .unmap address =>
    let unmapped := unmapPage F A t.root address t.machine
    (unmapped.1, ⟨t.root, unmapped.2⟩)

/-- A sequence of calls: each with what it returned, and the object after them. -/
def run : List Call → PageTable α → List (Call × Bool) × PageTable α
  | [], t => ([], t)
  | call :: calls, t =>
    let done := call.perform F A t
    let rest := run calls done.2
    ((call, done.1) :: rest.1, rest.2)

end Calls

/-- What a call that returned `true` or `false` does to a finite map from page numbers to
frames. -/
def Call.effect (pages : ℕ → Option ℕ) : Call × Bool → ℕ → Option ℕ
  | (.map address physical _, true) =>
    Function.update pages (address / pageSize) (some physical)
  | (.unmap address, true) => Function.update pages (address / pageSize) none
  | _ => pages

/-- **The finite map that a history leaves**: a page has the frame of the last successful `map` of
it that no successful `unmap` of it follows. -/
def mapping (history : List (Call × Bool)) : ℕ → Option ℕ :=
  history.foldl Call.effect fun _ => none

/-- The addresses and frames that a 48-bit machine has. -/
def Call.InRange : Call → Prop
  | .initializeTable => True
  | .map address physical _ => address < 2 ^ 48 ∧ physical ≠ 0 ∧ physical < 2 ^ 48
  | .unmap address => address < 2 ^ 48

variable {α : Type} {F : Format} {A : PageSource α} {width root : ℕ} {managed : Set ℕ}
  {free : α → Finset ℕ} {s s' : Machine α} {T : Tables}

/-! ## Unmapping -/

/-- Without `create`, a walk finds the table of the last level or ends; it changes nothing. -/
theorem walk_find (hF : F.Lawful width) (h : Tree F width s.mem root T) (address : ℕ)
    {level p : ℕ} (hlevel : level ≤ 3) (hp : T level (entryNumber (level + 1) address) = some p) :
    walk F A false address level p s = (T 0 (entryNumber 1 address), s) := by
  induction level generalizing p with
  | zero => rw [walk, hp]
  | succ level ih =>
    rw [walk, descend, h.load_indexOf hp]
    cases hnext : T level (entryNumber (level + 1) address) with
    | none =>
      -- An empty entry ends the walk, and there is no table further down.
      rw [h.none_below (Nat.le_of_succ_le hlevel) hnext]
      simp only [hF.empty, Bool.not_false, if_true]
    | some c =>
      obtain ⟨hpresent, hlarge, -, haddress, -⟩ := hF.table c (h.frame _ _ c hnext).1
      simp only [hpresent, hlarge, haddress, Bool.not_true, Bool.false_eq_true, if_false]
      exact ih (Nat.le_of_succ_le hlevel) hnext

/-- **`unmap`** answers whether the page was mapped, and then it is no more. -/
theorem unmapPage_spec (hF : F.Lawful width) {g : Layout}
    (h : PageTableRep F width managed free root g s) {address : ℕ} (hlimit : address < 2 ^ 48)
    {ok : Bool} (hunmap : unmapPage F A root address s = (ok, s')) :
    (ok = true ↔ address % pageSize = 0 ∧ g.pages (address / pageSize) ≠ none) ∧
      PageTableRep F width managed free root
        { g with
          pages :=
            if ok then Function.update g.pages (address / pageSize) none else g.pages } s' := by
  obtain ⟨T, hT, htables, hfree, hpages⟩ := h
  have hroot : root ≠ 0 := (hT.frame 3 0 root hT.root).2
  have htop : T 3 (entryNumber 4 address) = some root := by
    rw [entryNumber_root hlimit]
    exact hT.root
  have hentry := hpages (address / pageSize)
  rw [unmapPage] at hunmap
  by_cases haligned : address % pageSize = 0
  · rw [if_neg (by rintro (hzero | hne); exacts [hroot hzero, hne haligned]),
      walk_find hF hT.toTree address (Nat.le_refl 3) htop] at hunmap
    have hnumber : address / pageSize / 512 = entryNumber 1 address := entryNumber_div 0 address
    have hleaf : ∀ c, T 0 (entryNumber 1 address) = some c →
        T.leaf s.mem (address / pageSize) = s.mem.load (slot c (indexOf address 0)) := by
      intro c hc
      rw [Tables.leaf, hnumber, hc, indexOf_eq, entryNumber_zero]
    cases htable : T 0 (entryNumber 1 address) with
    | none =>
      -- No table, so no entry.
      rw [htable] at hunmap
      obtain ⟨rfl, rfl⟩ := Prod.mk.inj hunmap
      have hzero : T.leaf s.mem (address / pageSize) = 0 := by rw [Tables.leaf, hnumber, htable]
      refine ⟨⟨fun h => absurd h Bool.false_ne_true, fun h => ?_⟩, T, hT, htables, hfree, hpages⟩
      cases hpage : g.pages (address / pageSize) with
      | none => exact absurd hpage h.2
      | some entry =>
        obtain ⟨p, flags⟩ := entry
        rw [hpage, hzero] at hentry
        have hpresent := (hF.page p flags hentry.2).1
        rw [← hentry.1, hF.empty] at hpresent
        cases hpresent
    | some c =>
      rw [htable] at hunmap
      dsimp only at hunmap
      rw [← hleaf c htable] at hunmap
      cases hpage : g.pages (address / pageSize) with
      | none =>
        rw [hpage] at hentry
        rw [hentry, hF.empty] at hunmap
        obtain ⟨rfl, rfl⟩ := Prod.mk.inj hunmap
        exact ⟨⟨fun h => absurd h Bool.false_ne_true, fun h => absurd rfl h.2⟩, T, hT, htables,
          hfree, hpages⟩
      | some entry =>
        obtain ⟨p, flags⟩ := entry
        rw [hpage] at hentry
        rw [hentry.1, (hF.page p flags hentry.2).1] at hunmap
        obtain ⟨rfl, rfl⟩ := Prod.mk.inj hunmap
        obtain ⟨htree, hstored⟩ := hT.store_leaf (w := 0) htable (indexOf_lt address 0)
        have hupdate := hstored (by decide)
        rw [entryNumber_eq, entryNumber_zero] at hupdate
        refine ⟨⟨fun _ => ⟨haligned, Option.some_ne_none _⟩, fun _ => rfl⟩, T,
          ⟨htree, hT.apart, hT.managed⟩, htables, hfree, fun v => ?_⟩
        dsimp only
        rw [if_pos rfl, hupdate]
        by_cases hv : v = address / pageSize
        · rw [hv, Function.update_self, Function.update_self]
        · rw [Function.update_of_ne hv, Function.update_of_ne hv]
          exact hpages v
  · rw [if_pos (.inr haligned)] at hunmap
    obtain ⟨rfl, rfl⟩ := Prod.mk.inj hunmap
    exact ⟨⟨fun h => absurd h Bool.false_ne_true, fun h => absurd h.1 haligned⟩, T, hT, htables,
      hfree, hpages⟩

/-! ## Runs -/

section Runs

/-- The page table stands for the finite map. -/
def Represents (F : Format) (width : ℕ) (managed : Set ℕ) (free : α → Finset ℕ) (t : PageTable α)
    (pages : ℕ → Option ℕ) : Prop :=
  ∃ g, PageTableRep F width managed free t.root g t.machine ∧
    ∀ v, (g.pages v).map Prod.fst = pages v

variable {t t' : PageTable α} {pages : ℕ → Option ℕ}

/-- A represented map is what `translate` gives. -/
theorem Represents.translate (hF : F.Lawful width) (hA : A.Correct width managed free)
    (h : Represents F width managed free t pages) {w : ℕ} (hw : w < 2 ^ 48) :
    translate F t.machine.mem t.root w =
      match pages (w / pageSize) with
      | none => 0
      | some p => p + w % pageSize := by
  obtain ⟨g, hg, hpages⟩ := h
  have htranslate := (pageTable_lawful hF hA t.root).translate g t.machine w hg hw
  rw [← hpages]
  refine htranslate.trans ?_
  rw [Layout.translate]
  cases g.pages (w / pageSize) with
  | none => rfl
  | some entry => rfl

/-- `map`: the page gets the frame, or the call fails and nothing changes. -/
theorem Represents.map (hF : F.Lawful width) (hwidth : 48 ≤ width)
    (hA : A.Correct width managed free) (h : Represents F width managed free t pages)
    {address physical : ℕ} {flags : PageFlags} (haddress : address < 2 ^ 48)
    (hphysical : physical < 2 ^ 48) {ok : Bool}
    (hcall : Call.perform F A t (.map address physical flags) = (ok, t')) :
    Represents F width managed free t' (Call.effect pages (.map address physical flags, ok)) := by
  obtain ⟨g, hg, hpages⟩ := h
  obtain ⟨hok, rfl⟩ := Prod.mk.inj hcall
  have hroot : t.root ≠ 0 := by
    obtain ⟨T, hT, -⟩ := hg
    exact (hT.frame 3 0 t.root hT.root).2
  -- an address or a frame inside a page is refused
  by_cases haligned : address % pageSize ≠ 0 ∨ physical % pageSize ≠ 0
  · have hrefused : mapPage F A t.root address physical flags t.machine = (false, t.machine) := by
      rw [mapPage, if_neg hroot, if_pos haligned]
    rw [hrefused] at hok ⊢
    subst hok
    exact ⟨g, hg, hpages⟩
  · obtain ⟨hdvd, hframe⟩ := not_or.mp haligned
    have hvalid : ValidFrame width physical :=
      ⟨Nat.dvd_of_mod_eq_zero (not_not.mp hframe),
        Nat.lt_of_lt_of_le hphysical (Nat.pow_le_pow_right (by decide) hwidth)⟩
    obtain ⟨g', hg', -, hmapped, -⟩ := (pageTable_lawful hF hA t.root).map g t.machine address
      physical flags ok _ hg (Nat.dvd_of_mod_eq_zero (not_not.mp hdvd)) haddress hvalid
      (Prod.ext hok rfl)
    refine ⟨g', hg', fun v => ?_⟩
    rw [hmapped]
    cases ok with
    | false => exact hpages v
    | true =>
      rw [if_pos rfl, Layout.mapped, Call.effect, ← funext hpages]
      exact Function.apply_update (fun _ => Option.map Prod.fst) ..

/-- `unmap`: it answers whether the page was in the map, and takes it out. -/
theorem Represents.unmap (hF : F.Lawful width) (h : Represents F width managed free t pages)
    {address : ℕ} (haddress : address < 2 ^ 48) {ok : Bool}
    (hcall : Call.perform F A t (.unmap address) = (ok, t')) :
    (ok = true ↔ address % pageSize = 0 ∧ pages (address / pageSize) ≠ none) ∧
      Represents F width managed free t' (Call.effect pages (.unmap address, ok)) := by
  obtain ⟨g, hg, hpages⟩ := h
  obtain ⟨hok, rfl⟩ := Prod.mk.inj hcall
  have hunmap : unmapPage F A t.root address t.machine =
      (ok, (unmapPage F A t.root address t.machine).2) := Prod.ext hok rfl
  obtain ⟨hanswer, hg'⟩ := unmapPage_spec hF hg haddress hunmap
  have hsome : pages (address / pageSize) ≠ none ↔ g.pages (address / pageSize) ≠ none := by
    rw [← hpages, ne_eq, ne_eq, Option.map_eq_none_iff]
  refine ⟨by rw [hsome]; exact hanswer, _, hg', fun v => ?_⟩
  cases ok with
  | false => exact hpages v
  | true =>
    dsimp only
    rw [if_pos rfl, Call.effect, ← funext hpages]
    exact Function.apply_update (fun _ => Option.map Prod.fst) ..

/-- **One call** has its effect on the finite map. -/
theorem Represents.perform (hF : F.Lawful width) (hwidth : 48 ≤ width)
    (hA : A.Correct width managed free) (h : Represents F width managed free t pages) {call : Call}
    (hrange : call.InRange) {ok : Bool} (hcall : call.perform F A t = (ok, t')) :
    Represents F width managed free t' (Call.effect pages (call, ok)) := by
  cases call with
  | initializeTable =>
    have hroot : t.root ≠ 0 := by
      obtain ⟨g, ⟨T, hT, -⟩, -⟩ := h
      exact (hT.frame 3 0 t.root hT.root).2
    rw [Call.perform, if_pos hroot] at hcall
    obtain ⟨rfl, rfl⟩ := Prod.mk.inj hcall
    exact h
  | map address physical flags => exact h.map hF hwidth hA hrange.1 hrange.2.2 hcall
  | unmap address => exact (h.unmap hF hrange hcall).2

/-- **A run** leaves the page table that the finite map of its history needs. -/
theorem run_represents (hF : F.Lawful width) (hwidth : 48 ≤ width)
    (hA : A.Correct width managed free) (h : Represents F width managed free t pages)
    (calls : List Call) (hrange : ∀ call ∈ calls, call.InRange) :
    Represents F width managed free (run F A calls t).2
      ((run F A calls t).1.foldl Call.effect pages) := by
  induction calls generalizing t pages with
  | nil => exact h
  | cons call calls ih =>
    have hstep := h.perform hF hwidth hA (hrange call List.mem_cons_self) rfl
    exact ih hstep fun c hc => hrange c (List.mem_cons_of_mem call hc)

/-- A new object stands for the empty map. -/
theorem initializeTable_represents (hA : A.Correct width managed free)
    (hinit : Call.perform F A ⟨0, s⟩ .initializeTable = (true, t)) :
    Represents F width managed free t fun _ => none := by
  rw [Call.perform, if_neg (not_not.mpr rfl)] at hinit
  obtain ⟨hmade, rfl⟩ := Prod.mk.inj hinit
  have hnew : initializeTable A s = ((initializeTable A s).1, (initializeTable A s).2) := rfl
  rcases initializeTable_spec (F := F) hA hnew with ⟨hzero, -⟩ | ⟨howned, -, hleaf⟩
  · change ((initializeTable A s).1 != 0) = true at hmade
    rw [hzero] at hmade
    cases hmade
  · exact ⟨⟨fun _ => none, _, _⟩, ⟨_, howned, rfl, rfl, hleaf⟩, fun _ => rfl⟩

/-- **Page tables refine finite maps.** After `initialize` has succeeded and any calls were made,
a translation is that of the map that the history of the calls leaves; `unmap` succeeds exactly
on the aligned addresses of mapped pages; and a call of `map` that fails changes no
translation. -/
theorem run_refines (hF : Supported F width) (hA : A.Correct width managed free)
    (hinit : Call.perform F A ⟨0, s⟩ .initializeTable = (true, t)) (calls : List Call)
    (hrange : ∀ call ∈ calls, call.InRange) :
    let history := (run F A calls t).1
    let now := (run F A calls t).2
    (∀ w < 2 ^ 48, translate F now.machine.mem now.root w =
      match mapping history (w / pageSize) with
      | none => 0
      | some p => p + w % pageSize) ∧
    (∀ v < 2 ^ 48, (Call.perform F A now (.unmap v)).1 = true ↔
      v % pageSize = 0 ∧ mapping history (v / pageSize) ≠ none) ∧
    ∀ v p flags, (Call.map v p flags).InRange →
      (Call.perform F A now (.map v p flags)).1 = false → ∀ w < 2 ^ 48,
        translate F (Call.perform F A now (.map v p flags)).2.machine.mem now.root w =
          translate F now.machine.mem now.root w := by
  have hnow := run_represents hF.lawful hF.le hA (initializeTable_represents hA hinit) calls hrange
  refine ⟨fun w hw => hnow.translate hF.lawful hA hw, fun v hv => ?_,
    fun v p flags hin hfail w hw => ?_⟩
  · exact (hnow.unmap hF.lawful hv (Prod.ext rfl rfl)).1
  · have hafter := hnow.map hF.lawful hF.le hA hin.1 hin.2.2 (Prod.ext hfail rfl)
    exact (hafter.translate hF.lawful hA hw).trans (hnow.translate hF.lawful hA hw).symm

end Runs

/-! ## A machine with four pages -/

/-- The pages 0x1000, 0x2000, 0x3000 and 0x4000. -/
def fourPage (i : ℕ) : ℕ := (i + 1) * pageSize

/-- The allocator of the four pages: bit `i` says whether page `i` is free, and the first of those
is next. -/
def fourPages : PageSource (Fin 16) where
  allocatePage a :=
    match (List.range 4).find? a.val.testBit with
    | none => (0, a)
    | some i => (fourPage i, Fin.ofNat 16 (a.val ^^^ 2 ^ i))
  freePage p a := Fin.ofNat 16 (a.val ||| 2 ^ (p / pageSize - 1))

def fourFree (a : Fin 16) : Finset ℕ :=
  (((List.range 4).filter a.val.testBit).map fourPage).toFinset

theorem fourPages_correct : fourPages.Correct 48 {p | ∃ i < 4, p = fourPage i} fourFree where
  frame := by
    rintro p ⟨i, hi, rfl⟩
    refine ⟨⟨Nat.dvd_mul_left _ _, ?_⟩, ?_⟩ <;> unfold fourPage pageSize <;> omega
  inside := by
    intro a p hp
    obtain ⟨i, hi, rfl⟩ := List.mem_map.mp (List.mem_toFinset.mp hp)
    exact ⟨i, List.mem_range.mp (List.mem_of_mem_filter hi), rfl⟩
  allocate := by decide
  freePage := by
    rintro a p ⟨i, hi, rfl⟩ -
    revert a i
    decide

/-- The calls of an example: the four pages are enough for one page of an address space, not for
two that are far apart. -/
def farCalls : List Call :=
  [.map 0x5000 0x9000 ⟨true, true, false, false, false⟩,
    .map 0x8000000000 0xa000 ⟨true, true, false, false, false⟩]

/-- The four pages, of which the first is the root of a page table. -/
def fourTable : PageTable (Fin 16) := ⟨0x1000, ⟨clearPage (fun _ => 0) 0x1000, 14⟩⟩

theorem run_refines_fourPages :
    translate arm64 (run arm64 fourPages farCalls fourTable).2.machine.mem
        (run arm64 fourPages farCalls fourTable).2.root 0x5123 = 0x9123 ∧
      (Call.perform arm64 fourPages (run arm64 fourPages farCalls fourTable).2
        (.unmap 0x8000000000)).1 ≠ true := by
  have hnear : mapping (run arm64 fourPages farCalls fourTable).1 (0x5123 / pageSize) =
      some 0x9000 := by decide +kernel
  have hfar : mapping (run arm64 fourPages farCalls fourTable).1 (0x8000000000 / pageSize) =
      none := by decide +kernel
  obtain ⟨htranslate, hunmap, -⟩ := run_refines .arm64 fourPages_correct (s := ⟨fun _ => 0, 15⟩)
    (t := fourTable) rfl farCalls (by
      intro call hcall
      simp only [farCalls, List.mem_cons, List.not_mem_nil, or_false] at hcall
      rcases hcall with rfl | rfl <;> exact ⟨by decide, by decide, by decide⟩)
  constructor
  · have haddress := htranslate 0x5123 (by decide)
    rw [hnear] at haddress
    exact haddress
  · rw [ne_eq, hunmap 0x8000000000 (by decide), hfar]
    exact fun h => h.2 rfl

end ShirleysOS.Paging
