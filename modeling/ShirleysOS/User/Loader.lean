import Mathlib.Data.List.Pairwise
import ShirleysOS.Paging.AddressSpace
import ShirleysOS.User.Elf

/-!
# Loading a program

`load_elf` maps fresh pages for every segment of an image, copies the file contents into them and
adds a page for the stack. Source: `kernel/elf/user_loader.cpp`.

The copy loop asks `translate` for the physical address of a byte and adds the offset in the page
to it once more, and a segment maps fresh pages over those of an earlier segment that ends in the
same page. So what is loaded is the image when segments with file contents start on a page
boundary and no two segments have a page in common.
-/

namespace ShirleysOS.User

open Lib Paging
open Memory (pageSize)

/-! ## The model -/

def maxSegments : ℕ := 16
def userStackTop : ℕ := 0x00800000
def userStackPage : ℕ := userStackTop - pageSize

/-- `align_down`. -/
def alignDown (value : ℕ) : ℕ := pageOf value

/-- `add_overflow`: whether the sum is no 64-bit number. -/
def addOverflow (left right : ℕ) : Bool := Word.size - 1 - right < left

/-- `flags_for`. -/
def flagsFor (segment : Elf64Segment) : PageFlags where
  user := true
  read := segment.readable
  write := segment.writable
  execute := segment.executable

/-- The flags of the stack. -/
def stackFlags : PageFlags := { read := true, write := true, user := true }

/-- `Image`, what is known of a program that has been loaded. -/
structure Image where
  entry : ℕ
  stack : ℕ
  stackBottom : ℕ
  segmentCount : ℕ
deriving DecidableEq, Repr

/-- `copy_bytes`. -/
def copyBytes (m : Mem) (page offset : ℕ) (source : Bytes) (count : ℕ) : Mem :=
  Bytes.splice m (page + offset) count source

section Model

variable {σ : Type} (S : AddressSpace σ)

/-- A page is allocated, mapped and cleared (`zero_page`). -/
def mapFresh (flags : PageFlags) (address : ℕ) (s : σ) : Bool × σ :=
  match S.allocatePage s with
  | (page, s) =>
    if page = 0 then (false, s)
    else
      match S.map address page flags s with
      | (false, s) => (false, s)
      | (true, s) => (true, S.setMem (clearPage (S.mem s) page) s)

/-- The loop that maps the pages of a segment, `count` of them from `address` on. -/
def mapPages (flags : PageFlags) : ℕ → ℕ → σ → Bool × σ
  | 0, _, s => (true, s)
  | count + 1, address, s =>
    match mapFresh S flags address s with
    | (false, s) => (false, s)
    | (true, s) => mapPages flags count (address + pageSize) s

/-- The loop that copies the file contents of a segment. Every round copies at least a byte, so
the size of the file contents is enough `fuel`. -/
def copyFile (image : Bytes) (segment : Elf64Segment) (fileEnd : ℕ) : ℕ → ℕ → σ → Bool × σ
  | 0, _, s => (true, s)
  | fuel + 1, address, s =>
    if fileEnd ≤ address then (true, s)
    else
      let pageAddress := alignDown address
      let page := S.translate s address
      if page = 0 then (false, s)
      else
        let offset := address - pageAddress
        let remainingPage := pageSize - offset
        let remainingFile := fileEnd - address
        let amount := if remainingFile < remainingPage then remainingFile else remainingPage
        let source := image.slice (segment.fileOffset + (address - segment.virtualAddress))
        copyFile image segment fileEnd fuel (address + amount)
          (S.setMem (copyBytes (S.mem s) page offset source amount) s)

/-- One round of the loop over the segments. -/
def loadSegment (image : Bytes) (segment : Elf64Segment) (s : σ) : Bool × σ :=
  let segmentEnd := segment.virtualAddress + segment.memorySize
  if segment.memorySize = 0 ∨ segment.memorySize < segment.fileSize then (false, s)
  else if addOverflow segment.virtualAddress segment.memorySize ∨ userStackPage < segmentEnd ∨
      segment.virtualAddress < pageSize then (false, s)
  else
    let first := alignDown segment.virtualAddress
    let last := alignDown (segmentEnd - 1) + pageSize
    match mapPages S (flagsFor segment) ((last - first) / pageSize) first s with
    | (false, s) => (false, s)
    | (true, s) =>
      if addOverflow segment.virtualAddress segment.fileSize then (false, s)
      else
        copyFile S image segment (segment.virtualAddress + segment.fileSize) segment.fileSize
          segment.virtualAddress s

/-- The loop over the segments. -/
def loadAll (image : Bytes) : List Elf64Segment → σ → Bool × σ
  | [], s => (true, s)
  | segment :: rest, s =>
    match loadSegment S image segment s with
    | (false, s) => (false, s)
    | (true, s) => loadAll image rest s

/-- `load_elf`. -/
def loadElf (image : Bytes) (size machine : ℕ) (s : σ) : Option Image × σ :=
  let segments := elf64Segments image size machine maxSegments
  if segments.length = 0 ∨ segments.length = maxSegments then (none, s)
  else
    let entry := elf64Entry image size machine
    if entry = 0 ∨ userStackPage ≤ entry then (none, s)
    else
      match loadAll S image segments s with
      | (false, s) => (none, s)
      | (true, s) =>
        match mapFresh S stackFlags userStackPage s with
        | (false, s) => (none, s)
        | (true, s) => (some ⟨entry, userStackTop, userStackPage, segments.length⟩, s)

end Model

/-! ## One page -/

variable {p v count : ℕ} {flags : PageFlags} {segment : Elf64Segment} {image : Bytes}

section Spec

variable {σ : Type} {S : AddressSpace σ} {Frame : ℕ → Prop} {limit : ℕ} {Rep : Layout → σ → Prop}
  {g g' g'' : Layout} {s s' s'' : σ}

/-- From one state to a later one: the layout grows, and memory is written in pages handed out in
between only, the address space's own apart. -/
structure Extends (S : AddressSpace σ) (g : Layout) (s : σ) (g' : Layout) (s' : σ) : Prop where
  grows : g.Grows g'
  frame : ∀ x, pageOf x ∉ g'.tables → pageOf x ∉ g.free \ g'.free → S.mem s' x = S.mem s x

theorem Extends.refl (g : Layout) (s : σ) : Extends S g s g s :=
  ⟨Layout.Grows.of_eq rfl rfl, fun _ _ _ => rfl⟩

theorem Extends.trans (h : Extends S g s g' s') (h' : Extends S g' s' g'' s'') :
    Extends S g s g'' s'' where
  grows := h.grows.trans h'.grows
  frame x htable hfree := by
    have hsecond : S.mem s'' x = S.mem s' x :=
      h'.frame x htable fun hx => hfree ⟨h.grows.free hx.1, hx.2⟩
    have hfirst : S.mem s' x = S.mem s x :=
      h.frame x (fun hx => htable (h'.grows.keep hx)) fun hx =>
        hfree ⟨hx.1, fun hlate => hx.2 (h'.grows.free hlate)⟩
    rw [hsecond, hfirst]

/-- A byte of a page that is neither free nor the address space's own stays. -/
theorem Extends.mem_eq (h : Extends S g s g' s') {j : ℕ} (hp : pageSize ∣ p) (hj : j < pageSize)
    (hfree : p ∉ g.free) (htable : p ∉ g.tables) : S.mem s' (p + j) = S.mem s (p + j) := by
  apply h.frame <;> rw [pageOf_add hp hj]
  · exact (h.grows.not_mem hfree htable).2
  · exact fun hx => hfree hx.1

/-- The page number `v` is mapped to a page that was free before. -/
structure Fresh (g g' : Layout) (flags : PageFlags) (v frame : ℕ) : Prop where
  page : g'.pages v = some (frame, flags)
  taken : frame ∈ g.free
  gone : frame ∉ g'.free
  notTable : frame ∉ g'.tables

/-- A page stays mapped while its number is not mapped again. -/
theorem Fresh.later (h : Fresh g g' flags v p) (hg : g'.Grows g'')
    (hpage : g''.pages v = g'.pages v) : Fresh g g'' flags v p where
  page := hpage.trans h.page
  taken := h.taken
  gone := (hg.not_mem h.gone h.notTable).1
  notTable := (hg.not_mem h.gone h.notTable).2

theorem Fresh.earlier (h : Fresh g' g'' flags v p) (hg : g.Grows g') : Fresh g g'' flags v p :=
  ⟨h.page, hg.free h.taken, h.gone, h.notTable⟩

/-- Writing a page that was handed out in between. -/
theorem Extends.setMem (hS : S.Lawful Frame limit Rep) (h : Extends S g s g' s') (hrep : Rep g' s')
    {m : Mem} (htaken : p ∈ g.free) (hgone : p ∉ g'.free) (htable : p ∉ g'.tables)
    (hm : ∀ x, pageOf x ≠ p → m x = S.mem s' x) :
    Rep g' (S.setMem m s') ∧ Extends S g s g' (S.setMem m s') ∧ S.mem (S.setMem m s') = m := by
  obtain ⟨hrep', hmem⟩ := hS.setMem g' s' m hrep fun x hx => hm x fun heq => htable (heq ▸ hx)
  refine ⟨hrep', ⟨h.grows, fun x hx hfree => ?_⟩, hmem⟩
  rw [hmem, hm x fun heq => hfree (heq ▸ ⟨htaken, hgone⟩)]
  exact h.frame x hx hfree

theorem mapFresh_spec (hS : S.Lawful Frame limit Rep) (hrep : Rep g s) {address : ℕ}
    (haligned : pageSize ∣ address) (hlimit : address < limit)
    (h : mapFresh S flags address s = (true, s')) :
    ∃ g' p, Rep g' s' ∧ Extends S g s g' s' ∧ Fresh g g' flags (address / pageSize) p ∧
      (∀ v, v ≠ address / pageSize → g'.pages v = g.pages v) ∧
      ∀ j < pageSize, S.mem s' (p + j) = 0 := by
  unfold mapFresh at h
  split at h
  rename_i p sa halloc
  split at h
  · exact absurd (Prod.mk.inj h).1 (by decide)
  rename_i hne
  obtain ⟨hmema, ⟨hzero, -⟩ | ⟨hfree, hrepa⟩⟩ := hS.allocate g s p sa hrep halloc
  · exact absurd hzero hne
  obtain ⟨hframe, -, htable⟩ := hS.free g s hrep p hfree
  have hdvd : pageSize ∣ p := hS.dvd p hframe
  have hgone : p ∉ (g.take p).free := fun hp => hp.2 rfl
  split at h
  · exact absurd (Prod.mk.inj h).1 (by decide)
  rename_i sb hmap
  obtain ⟨g', hrepb, hgrows, hpages, hmem⟩ :=
    hS.map _ sa address p flags true sb hrepa haligned hlimit hframe hmap
  -- the page is handed out and no table, so it can be cleared
  obtain ⟨hgone', htable'⟩ := hgrows.not_mem hgone htable
  have hextends : Extends S g s g' sb :=
    ⟨(Layout.Grows.take g p).trans hgrows, fun x hx _ => by rw [hmem x hx, hmema]⟩
  obtain ⟨hrepc, hextends', hmemc⟩ :=
    hextends.setMem hS hrepb hfree hgone' htable' (m := clearPage (S.mem sb) p)
      fun x hx => clearPage_of_ne hdvd hx
  obtain rfl : _ = s' := (Prod.mk.inj h).2
  refine ⟨g', p, hrepc, hextends', ⟨?_, hfree, hgone', htable'⟩, ?_, ?_⟩
  · simp [hpages, Layout.mapped]
  · intro v hv
    simp [hpages, Layout.mapped, Function.update_of_ne hv, Layout.take]
  · intro j hj
    rw [hmemc]
    exact clearPage_apply hj

/-! ## The pages of a segment -/

/-- The page numbers from `first` on are mapped to distinct fresh pages full of zeros. -/
structure MapsFresh (S : AddressSpace σ) (flags : PageFlags) (first count : ℕ) (g g' : Layout)
    (s' : σ) : Prop where
  others : ∀ v, ¬ (first ≤ v ∧ v < first + count) → g'.pages v = g.pages v
  fresh : ∀ v, first ≤ v → v < first + count →
    ∃ p, Fresh g g' flags v p ∧ ∀ j < pageSize, S.mem s' (p + j) = 0
  inj : ∀ v w p, first ≤ v → v < first + count → first ≤ w → w < first + count →
    g'.pages v = some (p, flags) → g'.pages w = some (p, flags) → v = w

theorem mapPages_spec (hS : S.Lawful Frame limit Rep) {address : ℕ} (hrep : Rep g s)
    (haligned : pageSize ∣ address) (hlimit : address + count * pageSize ≤ limit)
    (h : mapPages S flags count address s = (true, s')) :
    ∃ g', Rep g' s' ∧ Extends S g s g' s' ∧
      MapsFresh S flags (address / pageSize) count g g' s' := by
  -- after the first page, the others are taken from what is still free
  induction count generalizing address g s with
  | zero =>
    obtain rfl : s = s' := (Prod.mk.inj h).2
    exact ⟨g, hrep, Extends.refl g s, fun _ _ => rfl, fun v _ _ => by omega,
      fun v _ _ _ _ _ _ _ _ => by omega⟩
  | succ count ih =>
    rw [mapPages] at h
    split at h
    · exact absurd (Prod.mk.inj h).1 (by decide)
    rename_i sa hfirst
    rw [Nat.succ_mul] at hlimit
    have hpos : 0 < pageSize := by decide
    obtain ⟨ga, p, hrepa, hexta, hfresh, hothers, hzero⟩ :=
      mapFresh_spec hS hrep haligned (by omega) hfirst
    obtain ⟨g', hrep', hext', hmaps⟩ :=
      ih hrepa (Nat.dvd_add haligned (Nat.dvd_refl pageSize)) (by omega) h
    have hnext : (address + pageSize) / pageSize = address / pageSize + 1 :=
      Nat.add_div_right address hpos
    rw [hnext] at hmaps
    have hdvd : pageSize ∣ p := hS.dvd p (hS.free g s hrep p hfresh.taken).1
    have hkept : g'.pages (address / pageSize) = ga.pages (address / pageSize) :=
      hmaps.others _ (by omega)
    have hfirst' : Fresh g g' flags (address / pageSize) p := hfresh.later hext'.grows hkept
    -- the page of the first number is none of the later ones
    have hapart : ∀ w, address / pageSize + 1 ≤ w → w < address / pageSize + 1 + count →
        g'.pages w ≠ some (p, flags) := by
      intro w hw hw' heq
      obtain ⟨q, hq, -⟩ := hmaps.fresh w hw hw'
      obtain rfl : q = p := (Prod.mk.inj (Option.some.inj (hq.page.symm.trans heq))).1
      exact hfresh.gone hq.taken
    refine ⟨g', hrep', hexta.trans hext', fun v hv => ?_, fun v hv hv' => ?_, ?_⟩
    · rw [hmaps.others v (by omega), hothers v (by omega)]
    · rcases Nat.eq_or_lt_of_le hv with rfl | hlt
      · refine ⟨p, hfirst', fun j hj => ?_⟩
        rw [hext'.mem_eq hdvd hj hfresh.gone hfresh.notTable]
        exact hzero j hj
      · obtain ⟨q, hq, hqzero⟩ := hmaps.fresh v hlt (by omega)
        exact ⟨q, hq.earlier hexta.grows, hqzero⟩
    · intro v w q hv hv' hw hw' hpv hpw
      rcases Nat.eq_or_lt_of_le hv with rfl | hvlt <;> rcases Nat.eq_or_lt_of_le hw with rfl | hwlt
      · rfl
      · obtain rfl : p = q := (Prod.mk.inj (Option.some.inj (hfirst'.page.symm.trans hpv))).1
        exact absurd hpw (hapart w hwlt (by omega))
      · obtain rfl : p = q := (Prod.mk.inj (Option.some.inj (hfirst'.page.symm.trans hpw))).1
        exact absurd hpv (hapart v hvlt (by omega))
      · exact hmaps.inj v w q hvlt (by omega) hwlt (by omega) hpv hpw

/-! ## The file contents -/

/-- The segment has the page number `v`. -/
def Elf64Segment.HasPage (segment : Elf64Segment) (v : ℕ) : Prop :=
  segment.virtualAddress / pageSize ≤ v ∧
    v ≤ (segment.virtualAddress + segment.memorySize - 1) / pageSize

theorem Elf64Segment.hasPage_add {k : ℕ} (hk : k < segment.memorySize) :
    segment.HasPage ((segment.virtualAddress + k) / pageSize) :=
  ⟨Nat.div_le_div_right (by omega), Nat.div_le_div_right (by omega)⟩

/-- The segment is in pages that were free before `g`; the first `count` bytes are those of the
file and the others zero. -/
def Placed (S : AddressSpace σ) (image : Bytes) (segment : Elf64Segment) (count : ℕ)
    (g g' : Layout) (s' : σ) : Prop :=
  ∀ k < segment.memorySize, ∃ p,
    Fresh g g' (flagsFor segment) ((segment.virtualAddress + k) / pageSize) p ∧
      S.mem s' (p + (segment.virtualAddress + k) % pageSize) =
        if k < count then image (segment.fileOffset + k) else 0

/-- The pages of a segment are distinct. -/
def PagesDistinct (segment : Elf64Segment) (g : Layout) : Prop :=
  ∀ v w p, segment.HasPage v → segment.HasPage w → g.pages v = some (p, flagsFor segment) →
    g.pages w = some (p, flagsFor segment) → v = w

/-- A segment stays in place while its pages are not mapped again. -/
theorem Placed.later (hS : S.Lawful Frame limit Rep) {s₀ : σ} (hrep : Rep g s₀)
    (h : Placed S image segment count g g' s') (hext : Extends S g' s' g'' s'')
    (hpages : ∀ v, segment.HasPage v → g''.pages v = g'.pages v) :
    Placed S image segment count g g'' s'' := by
  intro k hk
  obtain ⟨p, hp, hbyte⟩ := h k hk
  refine ⟨p, hp.later hext.grows (hpages _ (Elf64Segment.hasPage_add hk)), ?_⟩
  have hdvd : pageSize ∣ p := hS.dvd p (hS.free g s₀ hrep p hp.taken).1
  rw [hext.mem_eq hdvd (mod_pageSize_lt _) hp.gone hp.notTable, hbyte]

theorem Placed.earlier (h : Placed S image segment count g' g'' s'') (hg : g.Grows g') :
    Placed S image segment count g g'' s'' := by
  intro k hk
  obtain ⟨p, hp, hbyte⟩ := h k hk
  exact ⟨p, hp.earlier hg, hbyte⟩

theorem add_div_pageSize {a d : ℕ} (ha : pageSize ∣ a) (hd : d < pageSize) :
    (a + d) / pageSize = a / pageSize ∧ (a + d) % pageSize = d := by
  obtain ⟨q, rfl⟩ := ha
  have hpos : 0 < pageSize := by decide
  constructor
  · rw [Nat.mul_add_div hpos, Nat.div_eq_of_lt hd, Nat.mul_div_cancel_left q hpos, Nat.add_zero]
  · rw [Nat.mul_add_mod, Nat.mod_eq_of_lt hd]

/-- A copy that ends inside a page that was handed out in between. -/
theorem Extends.copy (hS : S.Lawful Frame limit Rep) (h : Extends S g s g' s') (hrep : Rep g' s')
    {offset amount : ℕ} (source : Bytes) (hp : pageSize ∣ p) (htaken : p ∈ g.free)
    (hgone : p ∉ g'.free) (htable : p ∉ g'.tables) (hinside : offset + amount ≤ pageSize) :
    let m := Bytes.splice (S.mem s') (p + offset) amount source
    Rep g' (S.setMem m s') ∧ Extends S g s g' (S.setMem m s') ∧ S.mem (S.setMem m s') = m := by
  refine h.setMem hS hrep htaken hgone htable fun x hx => Bytes.splice_outside ?_
  by_contra hin
  apply hx
  rw [show x = p + (x - p) by omega]
  exact pageOf_add hp (by omega)

/-- The next bytes of the file, which start a page, are copied into place. -/
theorem Placed.copy {amount : ℕ} (hframe : ∀ q ∈ g.free, pageSize ∣ q)
    (h : Placed S image segment count g g' s') (hdistinct : PagesDistinct segment g')
    (haligned : pageSize ∣ segment.virtualAddress + count) (hamount : amount ≤ pageSize)
    (hcount : count < segment.memorySize)
    (hp : Fresh g g' (flagsFor segment) ((segment.virtualAddress + count) / pageSize) p)
    (hmem : S.mem s'' = Bytes.splice (S.mem s') p amount
      (image.slice (segment.fileOffset + count))) :
    Placed S image segment (count + amount) g g' s'' := by
  intro k hk
  obtain ⟨q, hq, hbyte⟩ := h k hk
  refine ⟨q, hq, ?_⟩
  rw [hmem]
  -- the byte is in the page that is written, or in another one
  by_cases hsame : count ≤ k ∧ k < count + pageSize
  · obtain ⟨d, rfl⟩ : ∃ d, k = count + d := ⟨k - count, by omega⟩
    obtain ⟨hdiv, hmod⟩ := add_div_pageSize haligned (show d < pageSize by omega)
    rw [← Nat.add_assoc, hdiv] at hq
    rw [← Nat.add_assoc, hmod] at hbyte ⊢
    obtain rfl : p = q := (Prod.mk.inj (Option.some.inj (hp.page.symm.trans hq.page))).1
    rw [if_neg (by omega)] at hbyte
    by_cases hd : d < amount
    · rw [if_pos (by omega), ← Nat.add_assoc]
      exact Bytes.splice_add hd
    · rw [if_neg (by omega), ← hbyte]
      exact Bytes.splice_outside (by omega)
  · have hne : q ≠ p := by
      rintro rfl
      have heq := hdistinct _ _ q (Elf64Segment.hasPage_add hk) (Elf64Segment.hasPage_add hcount)
        hq.page hp.page
      obtain ⟨t, ht⟩ := haligned
      rw [ht, Nat.mul_div_cancel_left t (by decide)] at heq
      have hlow := Nat.div_mul_le_self (segment.virtualAddress + k) pageSize
      have hhigh := Nat.lt_div_mul_add (a := segment.virtualAddress + k) (b := pageSize)
        (by decide)
      rw [heq, Nat.mul_comm] at hlow hhigh
      omega
    have hbefore : k < count + amount ↔ k < count := by omega
    obtain ⟨t, rfl⟩ := hframe q hq.taken
    obtain ⟨u, rfl⟩ := hframe p hp.taken
    have htu : t ≠ u := fun heq => hne (heq ▸ rfl)
    rw [Nat.mul_comm pageSize t, Nat.mul_comm pageSize u] at *
    have houtside := Bytes.block_disjoint htu (mod_pageSize_lt (segment.virtualAddress + k))
    rw [Bytes.splice_outside (by omega), hbyte]
    exact if_congr hbefore.symm rfl rfl

/-- The copy loop writes to the pages of the segment only, when what is left begins a page, or its
copy ends inside the page that it begins in. From a page boundary on it puts the rest of the file
contents in place. -/
theorem copyFile_spec {fuel : ℕ} (hS : S.Lawful Frame limit Rep) {s₀ : σ} (hrep₀ : Rep g s₀)
    (hrep : Rep g' s') (hext : Extends S g s₀ g' s')
    (hpages : ∀ k < segment.memorySize, ∃ p,
      Fresh g g' (flagsFor segment) ((segment.virtualAddress + k) / pageSize) p)
    (hdistinct : PagesDistinct segment g')
    (hlimit : segment.virtualAddress + segment.memorySize ≤ limit)
    (hsize : segment.fileSize ≤ segment.memorySize) (hcount : count ≤ segment.fileSize)
    (hinside : count < segment.fileSize → pageSize ∣ segment.virtualAddress + count ∨
      2 * ((segment.virtualAddress + count) % pageSize) + (segment.fileSize - count) ≤ pageSize)
    (hfuel : segment.fileSize ≤ count + fuel)
    (h : copyFile S image segment (segment.virtualAddress + segment.fileSize) fuel
      (segment.virtualAddress + count) s' = (true, s'')) :
    Rep g' s'' ∧ Extends S g s₀ g' s'' ∧
      ((count < segment.fileSize → pageSize ∣ segment.virtualAddress + count) →
        Placed S image segment count g g' s' →
          Placed S image segment segment.fileSize g g' s'') := by
  induction fuel generalizing count s' with
  | zero =>
    obtain rfl : s' = s'' := (Prod.mk.inj h).2
    obtain rfl : count = segment.fileSize := by omega
    exact ⟨hrep, hext, fun _ hplaced => hplaced⟩
  | succ fuel ih =>
    rw [copyFile] at h
    split at h
    · obtain rfl : s' = s'' := (Prod.mk.inj h).2
      obtain rfl : count = segment.fileSize := by omega
      exact ⟨hrep, hext, fun _ hplaced => hplaced⟩
    rename_i hmore
    have hlt : count < segment.fileSize := by omega
    have hframe : ∀ q ∈ g.free, pageSize ∣ q := fun q hq => hS.dvd q (hS.free g s₀ hrep₀ q hq).1
    obtain ⟨p, hp⟩ := hpages count (by omega)
    have hmod := mod_pageSize_lt (segment.virtualAddress + count)
    have hle := Nat.mod_le (segment.virtualAddress + count) pageSize
    have htranslate : S.translate s' (segment.virtualAddress + count) =
        p + (segment.virtualAddress + count) % pageSize := by
      rw [hS.translate g' s' _ hrep (by omega), Layout.translate, hp.page]
    have hoffset : segment.virtualAddress + count - alignDown (segment.virtualAddress + count) =
        (segment.virtualAddress + count) % pageSize := by
      rw [alignDown, pageOf]
      omega
    have hdvd : pageSize ∣ segment.virtualAddress + count ↔
        (segment.virtualAddress + count) % pageSize = 0 := Nat.dvd_iff_mod_eq_zero
    have hpos : 0 < pageSize := by decide
    simp only [htranslate, hoffset, Nat.add_sub_cancel_left, copyBytes, Nat.add_assoc p] at h
    split at h
    · exact absurd (Prod.mk.inj h).1 (by decide)
    have hround := hinside hlt
    rw [hdvd] at hround
    -- what is left of a page is copied unless the file ends before
    generalize hamount : (if segment.virtualAddress + segment.fileSize -
      (segment.virtualAddress + count) < pageSize - (segment.virtualAddress + count) % pageSize then
      segment.virtualAddress + segment.fileSize - (segment.virtualAddress + count)
      else pageSize - (segment.virtualAddress + count) % pageSize) = amount at h
    have hcases : amount = segment.fileSize - count ∧
          amount < pageSize - (segment.virtualAddress + count) % pageSize ∨
        amount = pageSize - (segment.virtualAddress + count) % pageSize ∧
          amount ≤ segment.fileSize - count := by
      split at hamount <;> omega
    obtain ⟨hrep', hext', hmem⟩ := hext.copy hS hrep (image.slice (segment.fileOffset + count))
      (hframe p hp.taken) hp.taken hp.gone hp.notTable
      (show (segment.virtualAddress + count) % pageSize +
        (segment.virtualAddress + count) % pageSize + amount ≤ pageSize by omega)
    have hnext (hmore : count + amount < segment.fileSize) :
        pageSize ∣ segment.virtualAddress + (count + amount) := by
      obtain ⟨hshort, -⟩ | ⟨hwhole, -⟩ := hcases
      · omega
      · have hsplit := Nat.div_add_mod (segment.virtualAddress + count) pageSize
        refine ⟨(segment.virtualAddress + count) / pageSize + 1, ?_⟩
        rw [Nat.mul_succ]
        omega
    obtain ⟨hrep'', hext'', hrest⟩ := ih hrep' hext' (by omega) (fun hmore => .inl (hnext hmore))
      (by omega) (by rw [← Nat.add_assoc]; exact h)
    refine ⟨hrep'', hext'', fun haligned hplaced => hrest hnext ?_⟩
    have hzero := hdvd.mp (haligned hlt)
    simp only [hzero, Nat.add_zero] at hmem ⊢
    exact hplaced.copy hframe hdistinct (haligned hlt) (by omega) (by omega) hp hmem

/-! ## Segments -/

/-- A segment with file contents starts on a page boundary. -/
def Elf64Segment.StartAligned (segment : Elf64Segment) : Prop :=
  0 < segment.fileSize → pageSize ∣ segment.virtualAddress

instance (segment : Elf64Segment) : Decidable segment.StartAligned :=
  inferInstanceAs (Decidable (_ → _))

/-- The copy of the file contents stays inside the pages of the segment, wherever they are: with the
offset in the first page added twice, it ends in that page, or there is no offset. -/
def Elf64Segment.CopiedInside (segment : Elf64Segment) : Prop :=
  0 < segment.fileSize → pageSize ∣ segment.virtualAddress ∨
    2 * (segment.virtualAddress % pageSize) + segment.fileSize ≤ pageSize

instance (segment : Elf64Segment) : Decidable segment.CopiedInside :=
  inferInstanceAs (Decidable (_ → _))

theorem Elf64Segment.StartAligned.copiedInside (h : segment.StartAligned) :
    segment.CopiedInside := fun hpos => .inl (h hpos)

theorem alignDown_eq (x : ℕ) : alignDown x = pageSize * (x / pageSize) := by
  have := Nat.div_add_mod x pageSize
  rw [alignDown, pageOf]
  omega

/-- The number of pages that the loop of `load_elf` maps. -/
theorem pageCount_eq (hpos : 0 < segment.memorySize) :
    segment.virtualAddress / pageSize +
        (alignDown (segment.virtualAddress + segment.memorySize - 1) + pageSize -
          alignDown segment.virtualAddress) / pageSize =
      (segment.virtualAddress + segment.memorySize - 1) / pageSize + 1 := by
  have hle : segment.virtualAddress / pageSize ≤
      (segment.virtualAddress + segment.memorySize - 1) / pageSize :=
    Nat.div_le_div_right (by omega)
  rw [alignDown_eq, alignDown_eq, ← Nat.mul_succ, ← Nat.mul_sub,
    Nat.mul_div_cancel_left _ (by decide)]
  omega

/-- The segments that are accepted lie below the stack. -/
theorem Elf64Segment.HasPage.lt_stack (h : segment.HasPage v)
    (hend : segment.virtualAddress + segment.memorySize ≤ userStackPage) :
    v < userStackPage / pageSize := by
  apply lt_of_le_of_lt h.2
  have hwhole : pageSize * (userStackPage / pageSize) = userStackPage := by decide
  have hpos : 0 < userStackPage := by decide
  apply Nat.div_lt_of_lt_mul
  omega

theorem loadSegment_spec (hS : S.Lawful Frame limit Rep) (hstack : userStackTop ≤ limit)
    (hrep : Rep g s) (hinside : segment.CopiedInside)
    (h : loadSegment S image segment s = (true, s')) :
    ∃ g', Rep g' s' ∧ Extends S g s g' s' ∧
      (∀ v, ¬ segment.HasPage v → g'.pages v = g.pages v) ∧
      (segment.StartAligned → Placed S image segment segment.fileSize g g' s') ∧
      segment.virtualAddress + segment.memorySize ≤ userStackPage := by
  unfold loadSegment at h
  simp only at h
  split at h
  · exact absurd (Prod.mk.inj h).1 (by decide)
  rename_i hsizes
  split at h
  · exact absurd (Prod.mk.inj h).1 (by decide)
  rename_i hranges
  split at h
  · exact absurd (Prod.mk.inj h).1 (by decide)
  rename_i sa hmap
  split at h
  · exact absurd (Prod.mk.inj h).1 (by decide)
  obtain ⟨-, hend, hlow⟩ : addOverflow segment.virtualAddress segment.memorySize = false ∧
      segment.virtualAddress + segment.memorySize ≤ userStackPage ∧
      pageSize ≤ segment.virtualAddress := by
    simpa using hranges
  have htop : userStackPage ≤ limit := le_trans (by decide) hstack
  -- the pages from that of the first byte to that of the last
  have hcount := pageCount_eq (show 0 < segment.memorySize by omega)
  set count := (alignDown (segment.virtualAddress + segment.memorySize - 1) + pageSize -
    alignDown segment.virtualAddress) / pageSize
  have hdvd : pageSize ∣ alignDown segment.virtualAddress :=
    Nat.dvd_sub_mod segment.virtualAddress
  have hfirst : alignDown segment.virtualAddress / pageSize =
      segment.virtualAddress / pageSize := by
    rw [alignDown_eq, Nat.mul_div_cancel_left _ (by decide)]
  have hlast : alignDown segment.virtualAddress + count * pageSize ≤ limit := by
    have hpage := Elf64Segment.HasPage.lt_stack
      (Elf64Segment.hasPage_add (show segment.memorySize - 1 < segment.memorySize by omega)) hend
    rw [← Nat.add_sub_assoc (by omega)] at hpage
    rw [alignDown_eq, Nat.mul_comm count, ← Nat.mul_add, hcount]
    exact (Nat.mul_le_mul_left pageSize hpage).trans (le_trans (by decide) hstack)
  obtain ⟨g', hrepa, hexta, hmaps⟩ := mapPages_spec hS hrep hdvd hlast hmap
  rw [hfirst] at hmaps
  have hpage : ∀ v, segment.HasPage v ↔ segment.virtualAddress / pageSize ≤ v ∧
      v < segment.virtualAddress / pageSize + count := fun v => by
    unfold Elf64Segment.HasPage
    omega
  have hdistinct : PagesDistinct segment g' := fun v w p hv hw =>
    hmaps.inj v w p ((hpage v).mp hv).1 ((hpage v).mp hv).2 ((hpage w).mp hw).1 ((hpage w).mp hw).2
  -- before the copy every byte of the segment is zero
  have hzero : Placed S image segment 0 g g' sa := by
    intro k hk
    have hv := (hpage _).mp (Elf64Segment.hasPage_add hk)
    obtain ⟨p, hp, hbytes⟩ := hmaps.fresh _ hv.1 hv.2
    exact ⟨p, hp, by rw [if_neg (Nat.not_lt_zero k)]; exact hbytes _ (mod_pageSize_lt _)⟩
  obtain ⟨hrep', hext', hplaced⟩ :=
    copyFile_spec hS hrep hrepa hexta (fun k hk => (hzero k hk).imp fun _ hp => hp.1) hdistinct
      (hend.trans htop) (by omega) (by omega) hinside (by omega) h
  exact ⟨g', hrep', hext', fun v hv => hmaps.others v ((hpage v).not.mp hv),
    fun haligned => hplaced haligned hzero, hend⟩

/-- No two of the segments have a page in common. -/
def SeparatePages (segments : List Elf64Segment) : Prop :=
  segments.Pairwise fun a b => ∀ v, ¬ (a.HasPage v ∧ b.HasPage v)

theorem loadAll_spec {segments : List Elf64Segment} (hS : S.Lawful Frame limit Rep)
    (hstack : userStackTop ≤ limit) (hrep : Rep g s)
    (hinside : ∀ segment ∈ segments, segment.CopiedInside)
    (h : loadAll S image segments s = (true, s')) :
    ∃ g', Rep g' s' ∧ Extends S g s g' s' ∧
      (∀ v, (∀ segment ∈ segments, ¬ segment.HasPage v) → g'.pages v = g.pages v) ∧
      (∀ segment ∈ segments, segment.virtualAddress + segment.memorySize ≤ userStackPage) ∧
      (SeparatePages segments → ∀ segment ∈ segments, segment.StartAligned →
        Placed S image segment segment.fileSize g g' s') := by
  induction segments generalizing g s with
  | nil =>
    obtain rfl : s = s' := (Prod.mk.inj h).2
    exact ⟨g, hrep, Extends.refl g s, fun _ _ => rfl, List.forall_mem_nil _,
      fun _ => List.forall_mem_nil _⟩
  | cons segment rest ih =>
    rw [loadAll] at h
    split at h
    · exact absurd (Prod.mk.inj h).1 (by decide)
    rename_i sa hfirst
    obtain ⟨ga, hrepa, hexta, hothers, hplaced, hend⟩ :=
      loadSegment_spec hS hstack hrep (hinside segment List.mem_cons_self) hfirst
    obtain ⟨g', hrep', hext', hothers', hends, hplaced'⟩ :=
      ih hrepa (fun b hb => hinside b (List.mem_cons_of_mem segment hb)) h
    refine ⟨g', hrep', hexta.trans hext', fun v hv => ?_, ?_, fun hseparate b hb haligned => ?_⟩
    · rw [hothers' v fun b hb => hv b (List.mem_cons_of_mem segment hb),
        hothers v (hv segment List.mem_cons_self)]
    · exact List.forall_mem_cons.mpr ⟨hend, hends⟩
    · obtain ⟨happart, hrest⟩ := List.pairwise_cons.mp hseparate
      rcases List.mem_cons.mp hb with rfl | hb
      · -- the later segments leave the pages of the first alone
        exact (hplaced haligned).later hS hrep hext' fun v hv =>
          hothers' v fun c hc hcv => happart c hc v ⟨hv, hcv⟩
      · exact (hplaced' hrest b hb haligned).earlier hexta.grows

/-! ## The program -/

/-- What the loader does to the page map, and where the program is afterwards. -/
theorem loadElf_spec {size machine : ℕ} {result : Image} (hS : S.Lawful Frame limit Rep)
    (hstack : userStackTop ≤ limit) (hrep : Rep g s)
    (hinside : ∀ segment ∈ loadSegments image, segment.CopiedInside)
    (h : loadElf S image size machine s = (some result, s')) :
    ∃ g', Rep g' s' ∧ Extends S g s g' s' ∧
      (∀ v, v ≠ userStackPage / pageSize →
        (∀ segment ∈ loadSegments image, ¬ segment.HasPage v) → g'.pages v = g.pages v) ∧
      (∀ segment ∈ loadSegments image,
        segment.virtualAddress + segment.memorySize ≤ userStackPage) ∧
      (SeparatePages (loadSegments image) → ∀ segment ∈ loadSegments image,
        segment.StartAligned → Placed S image segment segment.fileSize g g' s') ∧
      ∃ p, Fresh g g' stackFlags (userStackPage / pageSize) p ∧
        ∀ j < pageSize, S.mem s' (p + j) = 0 := by
  unfold loadElf at h
  simp only at h
  split at h
  · exact absurd (Prod.mk.inj h).1 nofun
  rename_i hcount
  obtain ⟨hne, hroom⟩ := not_or.mp hcount
  rw [elf64Segments_eq_loadSegments hne hroom] at h
  split at h
  · exact absurd (Prod.mk.inj h).1 nofun
  split at h
  · exact absurd (Prod.mk.inj h).1 nofun
  rename_i sa hall
  split at h
  · exact absurd (Prod.mk.inj h).1 nofun
  rename_i sb hpage
  obtain rfl : sb = s' := (Prod.mk.inj h).2
  obtain ⟨ga, hrepa, hexta, hothers, hends, hplaced⟩ := loadAll_spec hS hstack hrep hinside hall
  obtain ⟨g', p, hrep', hext', hfresh, hothers', hzero⟩ :=
    mapFresh_spec hS hrepa (by decide) (lt_of_lt_of_le (by decide) hstack) hpage
  refine ⟨g', hrep', hexta.trans hext', fun v hv hv' => ?_, hends, fun hseparate segment hsegment
    haligned => ?_, p, hfresh.earlier hexta.grows, hzero⟩
  · rw [hothers' v hv, hothers v hv']
  · -- the stack is above every segment
    exact (hplaced hseparate segment hsegment haligned).later hS hrep hext' fun v hv =>
      hothers' v (hv.lt_stack (hends segment hsegment)).ne

/-- The flags allow what the segment asks for. -/
def Allows (flags : PageFlags) (segment : Elf64Segment) : Prop :=
  (segment.readable → flags.read) ∧ (segment.writable → flags.write) ∧
    (segment.executable → flags.execute) ∧ flags.user

/-- **A program is loaded as its image says.** Over any address space whose `map` and `translate`
behave as a finite page map, when the segments with file contents start on a page boundary and no
two segments have a page in common: every byte of a segment is the byte of the file or zero, its
page allows what the segment asks for, the stack is zero, and no memory is written outside the
pages handed out meanwhile. -/
theorem loadElf_faithful {image : Bytes} {size machine : ℕ} {result : Image}
    (hS : S.Lawful Frame limit Rep) (hstack : userStackTop ≤ limit) (hrep : Rep g s)
    (haligned : ∀ segment ∈ loadSegments image, segment.StartAligned)
    (hseparate : SeparatePages (loadSegments image))
    (h : loadElf S image size machine s = (some result, s')) :
    ∃ g', Rep g' s' ∧
      (∀ segment ∈ loadSegments image, ∀ k < segment.memorySize,
        S.mem s' (S.translate s' (segment.virtualAddress + k)) =
            (if k < segment.fileSize then image (segment.fileOffset + k) else 0) ∧
          ∃ frame flags, g'.pages ((segment.virtualAddress + k) / pageSize) = some (frame, flags) ∧
            Allows flags segment) ∧
      (∀ j < pageSize, S.mem s' (S.translate s' (userStackPage + j)) = 0) ∧
      ∀ x, pageOf x ∉ g'.tables → pageOf x ∉ g.free \ g'.free → S.mem s' x = S.mem s x := by
  obtain ⟨g', hrep', hext, -, hends, hplaced, p, hfresh, hzero⟩ :=
    loadElf_spec hS hstack hrep (fun segment hsegment => (haligned segment hsegment).copiedInside) h
  -- segments end below the page of the stack, and that below the limit
  have htop : userStackPage + pageSize = userStackTop := by decide
  refine ⟨g', hrep', fun segment hsegment k hk => ?_, fun j hj => ?_, hext.frame⟩
  · have hend := hends segment hsegment
    obtain ⟨q, hq, hbyte⟩ := hplaced hseparate segment hsegment (haligned segment hsegment) k hk
    refine ⟨?_, q, flagsFor segment, hq.page, id, id, id, rfl⟩
    rw [hS.translate g' s' _ hrep' (by omega), Layout.translate, hq.page]
    exact hbyte
  · obtain ⟨hdiv, hmod⟩ := add_div_pageSize (show pageSize ∣ userStackPage by decide) hj
    rw [hS.translate g' s' _ hrep' (by omega), Layout.translate, hdiv, hfresh.page]
    dsimp only
    rw [hmod]
    exact hzero j hj

end Spec

/-! ## Images -/

/-- An image with one segment: the byte `0x5a` at `virtualAddress`. -/
def byteImage (virtualAddress : ℕ) : Bytes := fun i =>
  ([0x7f, 0x45, 0x4c, 0x46, 2, 1, 1, 0, 0, 0, 0, 0, 0, 0, 0, 0, 2, 0, 62, 0, 1, 0, 0, 0,
    0, 0x10, 0, 0, 0, 0, 0, 0, 64, 0, 0, 0, 0, 0, 0, 0, 0, 0, 0, 0, 0, 0, 0, 0,
    0, 0, 0, 0, 64, 0, 56, 0, 1, 0, 0, 0, 0, 0, 0, 0,
    1, 0, 0, 0, 6, 0, 0, 0, 120, 0, 0, 0, 0, 0, 0, 0,
    UInt8.ofNat virtualAddress, UInt8.ofNat (virtualAddress / 256),
    UInt8.ofNat (virtualAddress / 256 ^ 2), 0, 0, 0, 0, 0,
    0, 0, 0, 0, 0, 0, 0, 0, 1, 0, 0, 0, 0, 0, 0, 0, 1, 0, 0, 0, 0, 0, 0, 0,
    0, 0, 0, 0, 0, 0, 0, 0, 0x5a] : List UInt8).getD i 0

/-- Nothing is mapped, and two pages are free. -/
def emptySpace : FlatSpace := ⟨fun _ => none, [0x100000, 0x200000], fun _ => 0⟩

/-- Nothing is mapped, and three pages are free. -/
def wideSpace : FlatSpace := { emptySpace with free := [0x100000, 0x200000, 0x300000] }

theorem wideSpace_rep : FlatSpace.Rep
    ⟨fun _ => none, ∅, {p | p ∈ [0x100000, 0x200000, 0x300000]}⟩ wideSpace :=
  ⟨rfl, rfl, rfl, by decide, by decide⟩

/-- Bytes of both segments, the last byte behind the file contents of the second, and the stack. -/
theorem loadElf_faithful_bssImage :
    let s' := (loadElf flatSpace bssImage 179 62 wideSpace).2
    flatSpace.mem s' (flatSpace.translate s' 0x1001) = 0x5b ∧
      flatSpace.mem s' (flatSpace.translate s' 0x2000) = 0x5c ∧
      flatSpace.mem s' (flatSpace.translate s' 0x2002) = 0 ∧
      flatSpace.mem s' (flatSpace.translate s' (userStackPage + 5)) = 0 := by
  have hload : loadElf flatSpace bssImage 179 62 wideSpace =
      (some ⟨0x1000, userStackTop, userStackPage, 2⟩,
        (loadElf flatSpace bssImage 179 62 wideSpace).2) :=
    Prod.ext (by decide +kernel) rfl
  have hseparate : SeparatePages (loadSegments bssImage) := by
    rw [SeparatePages, loadSegments_bssImage, List.pairwise_pair]
    rintro v ⟨⟨-, hfirst⟩, hsecond, -⟩
    dsimp only [pageSize] at hfirst hsecond
    omega
  obtain ⟨g', -, hbytes, hstack, -⟩ := loadElf_faithful (flatSpace_lawful userStackTop)
    (Nat.le_refl _) wideSpace_rep (by rw [loadSegments_bssImage]; decide) hseparate hload
  rw [loadSegments_bssImage] at hbytes
  obtain ⟨hcode, hdata, -⟩ := List.forall_mem_cons.mp hbytes |>.imp_right List.forall_mem_cons.mp
  exact ⟨(hcode 1 (by decide)).1, (hdata 0 (by decide)).1, (hdata 2 (by decide)).1,
    hstack 5 (by decide)⟩

/-- A segment that starts in the middle of a page: its byte is not at its address, and a byte is
written in a page that was not handed out. -/
theorem unaligned_misplaced :
    (loadElf flatSpace (byteImage 0x1800) 121 62 emptySpace).1 =
        some ⟨0x1000, userStackTop, userStackPage, 1⟩ ∧
      loadSegments (byteImage 0x1800) = [⟨120, 1, 0, 0x1800, 1, true, true, false⟩] ∧
      flatSpace.mem (loadElf flatSpace (byteImage 0x1800) 121 62 emptySpace).2
          (flatSpace.translate (loadElf flatSpace (byteImage 0x1800) 121 62 emptySpace).2 0x1800) ≠
        byteImage 0x1800 120 ∧
      flatSpace.mem (loadElf flatSpace (byteImage 0x1800) 121 62 emptySpace).2 0x101000 ≠
        flatSpace.mem emptySpace 0x101000 ∧
      (loadElf flatSpace (byteImage 0x1800) 121 62 emptySpace).2.free = [] := by
  decide

end ShirleysOS.User
