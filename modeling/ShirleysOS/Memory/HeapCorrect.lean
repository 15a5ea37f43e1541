import ShirleysOS.Memory.HeapAllocate
import ShirleysOS.Memory.HeapFree

/-!
# The heap is correct in every run

From a fresh heap, through any calls of `allocate` and `free` and any writes of clients to
their own payloads, the heap keeps a layout whose allocated blocks are the live allocations.
-/

namespace ShirleysOS.Heap

open Lib

variable {h : State} {bs rest : List Block} {lo next : ℕ}

/-! ## A fresh heap -/

theorem layout_empty (mem : Mem) : Layout ⟨0, 0, 0, 0, mem⟩ [] where
  tiles := rfl
  granular := granular_nil
  separated := List.isChain_nil
  represents := trivial
  head := rfl
  freeBytes := rfl
  owned := by simp
  aligned := Nat.dvd_zero _
  low := .inl rfl
  high := show 0 + defaultAlignment ≤ Word.size by decide

theorem layout_single {start stop : ℕ} (mem : Mem) (hstart : 16 ∣ start) (hstop : 16 ∣ stop)
    (hmin : start + 32 ≤ stop) (hlow : 16 ≤ start) (hhigh : stop + 16 ≤ Word.size) :
    Layout ⟨start, stop, start, stop - start, makeFree mem start (stop - start) 0⟩
      [⟨start, stop - start, none⟩] where
  tiles := ⟨rfl, Nat.sub_pos_of_lt (by omega), show start + (stop - start) = stop by omega⟩
  granular := granular_cons.mpr
    ⟨⟨show 32 ≤ stop - start by omega, show 16 ∣ stop - start from Nat.dvd_sub hstop hstart⟩,
      granular_nil⟩
  separated := List.isChain_singleton _
  represents := makeFree_represents (by omega) (by decide)
  head := rfl
  freeBytes := by simp [freeSize]
  owned := by simp
  aligned := hstart
  low := .inr hlow
  high := hhigh

/-- A fresh heap has a layout, unless its region begins so close to the top of memory that the
address cannot be rounded up. A region that goes beyond the top is not taken. -/
theorem initializeHeap_layout {base bytes : ℕ} (mem : Mem) (hbase : base < Word.size)
    (hregion : base + defaultAlignment ≤ Word.size ∨ Word.size ≤ base + bytes) :
    ∃ bs, Layout (initializeHeap base bytes mem) bs ∧ bs.filterMap Piece.label = [] ∧
      ((initializeHeap base bytes mem).heapBegin = (initializeHeap base bytes mem).heapEnd ∨
        base ≤ (initializeHeap base bytes mem).heapBegin ∧
          (initializeHeap base bytes mem).heapEnd ≤ base + bytes) := by
  simp only [initializeHeap]
  split_ifs with hbad hsmall
  · exact ⟨[], layout_empty mem, rfl, .inl rfl⟩
  · exact ⟨[], layout_empty mem, rfl, .inl rfl⟩
  · have hsize : defaultAlignment ∣ Word.size := by decide
    rw [Word.add_of_lt (by omega)] at hsmall ⊢
    have hrounded := alignUp_cases base (show 0 < defaultAlignment by decide) (by decide) hbase
    have hstop := Nat.dvd_sub_mod (n := defaultAlignment) (base + bytes)
    have hle := Nat.sub_le (base + bytes) ((base + bytes) % defaultAlignment)
    generalize alignUp base defaultAlignment = first at *
    generalize base + bytes - (base + bytes) % defaultAlignment = stop at *
    simp only [minBlock, defaultAlignment] at *
    obtain ⟨hfirst, hge, -⟩ := hrounded.resolve_left (by omega)
    rw [Word.sub_of_le (by omega)] at hsmall ⊢
    exact ⟨_, layout_single mem hfirst hstop (by omega) (by omega) (by omega), rfl,
      .inr ⟨hge, hle⟩⟩

/-! ## Clients -/

variable {b : Block} {fuel : ℕ} {a : Allocation}

/-- A byte of a payload is in no header and no link. -/
theorem Layout.write (hl : Layout h bs) (hb : b ∈ bs) (hused : b.label ≠ none) {x : ℕ}
    (hlo : b.start + headerBytes ≤ x) (hhi : x < b.stop) (byte : UInt8) :
    Layout { h with mem := Function.update h.mem x byte } bs := by
  obtain ⟨pre, post, rfl⟩ := List.append_of_mem hb
  have hc := hl.around
  have hsame : ∀ y, y ≠ x → Function.update h.mem x byte y = h.mem y :=
    fun y hy => Function.update_of_ne hy _ _
  have hrep : Represents (Function.update h.mem x byte) 0 (pre ++ b :: post) := by
    refine represents_append.mpr ⟨?_, ?_, ?_, fun hfree => absurd hfree hused, ?_⟩
    · exact hc.representsPre.frame hc.tilesPre hc.granularPre fun y _ hy => hsame y (by omega)
    · rw [← hc.size]
      exact Mem.load_congr fun i hi => hsame _ (by simp only [headerBytes] at hlo; omega)
    · rw [← hc.tag]
      exact Mem.load_congr fun i hi => hsame _ (by simp only [headerBytes] at hlo; omega)
    · exact hc.representsPost.frame hc.tilesPost hc.granularPost fun y hy _ => hsame y (by omega)
  exact ⟨hl.tiles, hl.granular, hl.separated, hrep, hl.head, hl.freeBytes, hl.owned, hl.aligned,
    hl.low, hl.high⟩

/-! ## Inspection -/

/-- The free blocks of a list. -/
def freeCount (bs : List Block) : ℕ := bs.countP fun b => b.label.isNone

theorem freeCount_cons_free (hb : b.label = none) : freeCount (b :: bs) = freeCount bs + 1 := by
  simp [freeCount, hb]

theorem freeCount_cons_used (hb : b.label ≠ none) : freeCount (b :: bs) = freeCount bs := by
  simp [freeCount, hb]

/-- The walk over all blocks ends at the end of the heap, having counted the free ones. -/
theorem walkBlocks_eq {walked : ℕ} (ht : Tiles lo rest h.heapEnd) (hg : Granular rest)
    (hr : Represents h.mem next rest) (hhi : h.heapEnd < Word.size) (hfuel : rest.length < fuel) :
    walkBlocks h fuel lo walked = some (walked + freeCount rest, h.heapEnd) := by
  induction rest generalizing lo fuel walked with
  | nil =>
    obtain rfl : lo = h.heapEnd := ht
    obtain ⟨fuel, rfl⟩ : ∃ n, fuel = n + 1 := ⟨fuel - 1, by simp at hfuel; omega⟩
    simp [walkBlocks, freeCount]
  | cons b rest ih =>
    obtain ⟨rfl, hpos, hrest⟩ := ht
    obtain ⟨⟨hmin, -⟩, hgrest⟩ := granular_cons.mp hg
    obtain ⟨hsize, htag, -, hrrest⟩ := hr
    obtain ⟨fuel, rfl⟩ : ∃ n, fuel = n + 1 := ⟨fuel - 1, by simp at hfuel; omega⟩
    have hle := hrest.le
    have hlt : b.start + b.size ≤ h.heapEnd := hle
    simp only [walkBlocks, hsize, htag, Word.sub_of_le (show b.start ≤ h.heapEnd by omega),
      Word.add_of_lt (show b.start + b.size < Word.size by omega)]
    by_cases hfree : b.label = none
    · have hfreeTag : tagOf b = freeTag := if_pos hfree
      rw [if_pos (by omega), if_neg (by simp [hfreeTag]; omega), if_pos hfreeTag,
        freeCount_cons_free hfree,
        show walked + (freeCount rest + 1) = walked + 1 + freeCount rest by omega]
      exact ih hrest hgrest hrrest (by simpa using hfuel)
    · have husedTag : tagOf b = usedTag := if_neg hfree
      have hne : usedTag ≠ freeTag := by decide
      rw [if_pos (by omega), if_neg (by simp [husedTag]; omega), husedTag, if_neg hne,
        freeCount_cons_used hfree]
      exact ih hrest hgrest hrrest (by simpa using hfuel)

/-- The walk over the free list counts the free blocks and adds up their sizes. -/
theorem listFree_eq {previousEnd listed listedBytes : ℕ} (hlo : h.heapBegin ≤ lo)
    (ht : Tiles lo rest h.heapEnd) (hg : Granular rest) (hs : Separated rest)
    (hr : Represents h.mem 0 rest) (hhi : h.heapEnd < Word.size) (hpos : 0 < lo ∨ rest = [])
    (hprev : ∀ c ∈ rest, c.label = none → previousEnd < c.start)
    (hsum : listedBytes + (rest.map freeSize).sum < Word.size) (hfuel : rest.length < fuel) :
    listFree h fuel (firstFree 0 rest) previousEnd listed listedBytes =
      some (listed + freeCount rest, listedBytes + (rest.map freeSize).sum) := by
  induction rest generalizing lo fuel previousEnd listed listedBytes with
  | nil =>
    obtain ⟨fuel, rfl⟩ : ∃ n, fuel = n + 1 := ⟨fuel - 1, by simp at hfuel; omega⟩
    simp [listFree, freeCount]
  | cons b rest ih =>
    obtain ⟨rfl, hbpos, hrest⟩ := ht
    obtain ⟨⟨hmin, -⟩, hgrest⟩ := granular_cons.mp hg
    obtain ⟨hsize, htag, hnext, hrrest⟩ := hr
    have hle : b.start + b.size ≤ h.heapEnd := hrest.le
    have hstart : h.heapBegin ≤ b.stop := hlo.trans (Nat.le_add_right _ _)
    have hstop : 0 < b.stop := Nat.add_pos_right _ hbpos
    rw [List.map_cons, List.sum_cons, freeSize] at hsum ⊢
    by_cases hfree : b.label = none
    · obtain ⟨fuel, rfl⟩ : ∃ n, fuel = n + 1 := ⟨fuel - 1, by simp at hfuel; omega⟩
      rw [if_pos hfree] at hsum ⊢
      obtain ⟨-, hsrest, -, hhead⟩ : Separated [] ∧ _ := (separated_free_iff hfree).mp hs
      have hfreeTag : tagOf b = freeTag := if_pos hfree
      have hprevb := hprev b List.mem_cons_self hfree
      -- the block right behind is allocated, so the next free one is further on
      have hprevRest : ∀ c ∈ rest, c.label = none → b.stop < c.start := by
        intro c hc hcfree
        cases rest with
        | nil => simp at hc
        | cons d rest =>
          obtain ⟨hd, hdpos, hrest'⟩ := hrest
          rcases List.mem_cons.mp hc with rfl | hc
          · exact absurd hcfree (hhead c rfl)
          · have := (hrest'.bounds hc).1
            simp only [Piece.stop] at *
            omega
      have hb0 : b.start ≠ 0 := by
        have := hpos.resolve_right (by simp)
        omega
      rw [firstFree_cons_free hfree, listFree, if_neg hb0, hsize, htag,
        Word.sub_of_le (show b.start ≤ h.heapEnd by omega), hfreeTag, if_neg (by simp; omega),
        hnext hfree, endOf, hsize, Word.add_of_lt (show b.start + b.size < Word.size by omega),
        Word.add_of_lt (show listedBytes + b.size < Word.size by omega),
        freeCount_cons_free hfree]
      refine (ih hstart hrest hgrest hsrest hrrest (.inl hstop) hprevRest (by omega)
        (by simpa using hfuel)).trans ?_
      simp only [Option.some.injEq, Prod.mk.injEq]
      omega
    · rw [if_neg hfree, Nat.zero_add] at hsum ⊢
      rw [firstFree_cons_used hfree, freeCount_cons_used hfree]
      exact ih hstart hrest hgrest hs.tail hrrest (.inl hstop)
        (fun c hc => hprev c (List.mem_cons_of_mem b hc)) hsum ((Nat.lt_succ_self _).trans hfuel)

/-- **`consistent`** accepts every heap that has a layout. -/
theorem Layout.consistent (hl : Layout h bs) : consistent h = true := by
  have hhigh := hl.heapEnd_lt
  have hlen := hl.tiles.length_le
  have hsum := hl.tiles.sum_sizes
  have hfree := sum_freeSize_le bs
  have hlow : 0 < h.heapBegin ∨ bs = [] := by
    rcases hl.low with heq | hlow
    · exact .inr (List.length_eq_zero_iff.mp (by omega))
    · exact .inl (lt_of_lt_of_le (by decide) hlow)
  have hprev : ∀ c ∈ bs, c.label = none → 0 < c.start := fun c hc _ => by
    rcases hlow with hlow | rfl
    · exact hlow.trans_le (hl.tiles.bounds hc).1
    · simp at hc
  have hlist : listFree h (h.heapEnd - h.heapBegin + 1) (firstFree 0 bs) 0 0 0 =
      some (0 + freeCount bs, 0 + (bs.map freeSize).sum) :=
    listFree_eq le_rfl hl.tiles hl.granular hl.separated hl.represents (by omega) hlow hprev
      (by omega) (by omega)
  have hwalk : walkBlocks h (h.heapEnd - h.heapBegin + 1) h.heapBegin 0 =
      some (0 + freeCount bs, h.heapEnd) :=
    walkBlocks_eq hl.tiles hl.granular hl.represents (by omega) (by omega)
  simp [Heap.consistent, hl.head, hlist, hwalk, hl.freeBytes]

/-- The block boundaries the walk meets are those of the layout. -/
theorem headersFrom_eq (ht : Tiles lo rest h.heapEnd) (hr : Represents h.mem next rest)
    (hhi : h.heapEnd < Word.size) (hfuel : rest.length ≤ fuel) :
    headersFrom h fuel lo = rest.map Piece.start := by
  induction rest generalizing lo fuel with
  | nil =>
    obtain rfl : lo = h.heapEnd := ht
    cases fuel <;> simp [headersFrom]
  | cons b rest ih =>
    obtain ⟨rfl, hpos, hrest⟩ := ht
    obtain ⟨hsize, -, -, hrrest⟩ := hr
    obtain ⟨fuel, rfl⟩ : ∃ n, fuel = n + 1 := ⟨fuel - 1, by simp at hfuel; omega⟩
    have hle : b.start + b.size ≤ h.heapEnd := hrest.le
    rw [headersFrom, if_pos (by omega), hsize, Word.add_of_lt (by omega), List.map_cons]
    exact congrArg _ (ih hrest hrrest (by simpa using hfuel))

theorem Layout.headers (hl : Layout h bs) : headers h = bs.map Piece.start :=
  headersFrom_eq hl.tiles hl.represents hl.heapEnd_lt hl.tiles.length_le

/-! ## Live allocations -/

/-- What clients may rely on: where their payloads are, that nothing else is there, and that
the accounting of the heap is right. -/
structure Run.Correct (base bytes : ℕ) (r : Run) : Prop where
  aligned : ∀ a ∈ r.live, max a.alignment defaultAlignment ∣ a.pointer
  fits : ∀ a ∈ r.live, a.bytes ≤ payloadSize r.heap.mem a.pointer
  inside : ∀ a ∈ r.live,
    base ≤ a.pointer ∧ a.pointer + payloadSize r.heap.mem a.pointer ≤ base + bytes
  disjoint : r.live.Pairwise fun a b =>
    a.pointer + payloadSize r.heap.mem a.pointer ≤ b.pointer ∨
      b.pointer + payloadSize r.heap.mem b.pointer ≤ a.pointer
  headers : ∀ a ∈ r.live, ∀ x ∈ headers r.heap,
    x + headerBytes ≤ a.pointer ∨ a.pointer + payloadSize r.heap.mem a.pointer ≤ x
  available : available r.heap +
    (r.live.map fun a => blockSize r.heap.mem (a.pointer - headerBytes)).sum = capacity r.heap
  consistent : consistent r.heap = true

/-- The payload of `a` is the same in both heaps. -/
def SamePayload (r r' : Run) (a : Allocation) : Prop :=
  payloadSize r'.heap.mem a.pointer = payloadSize r.heap.mem a.pointer ∧
    ∀ i < payloadSize r.heap.mem a.pointer,
      r'.heap.mem (a.pointer + i) = r.heap.mem (a.pointer + i)

/-- The steps that are calls to the allocator. -/
def Step.IsCall : Step → Prop
  | .allocate _ _ => True
  | .free _ => True
  | .write _ _ _ => False

/-- The invariant of a run: the heap is laid out in its region, and the owners of its blocks are
the live allocations. -/
structure Run.Laid (base bytes : ℕ) (r : Run) (bs : List Block) : Prop where
  layout : Layout r.heap bs
  live : r.live.Perm (bs.filterMap Piece.label)
  region : r.heap.heapBegin = r.heap.heapEnd ∨
    base ≤ r.heap.heapBegin ∧ r.heap.heapEnd ≤ base + bytes

variable {base bytes : ℕ} {r : Run}

theorem Run.Laid.block (hr : r.Laid base bytes bs) (ha : a ∈ r.live) : ∃ b ∈ bs, b.label = some a :=
  List.mem_filterMap.mp (hr.live.mem_iff.mp ha)

theorem Layout.payload (hl : Layout h bs) (hb : b ∈ bs) (ha : b.label = some a) :
    a.pointer = b.start + headerBytes ∧ a.pointer + payloadSize h.mem a.pointer = b.stop ∧
      blockSize h.mem (a.pointer - headerBytes) = b.size := by
  obtain ⟨hpointer, hbytes, -⟩ := hl.owned b hb a ha
  have hsize : blockSize h.mem (a.pointer - headerBytes) = b.size := by
    rw [hpointer, Nat.add_sub_cancel]
    exact (hl.represents.header hb).1
  refine ⟨hpointer, ?_, hsize⟩
  rw [payloadSize, hsize, hpointer, Piece.stop]
  omega

theorem Layout.nonempty_region (hl : Layout h bs) (hb : b ∈ bs) : h.heapBegin < h.heapEnd := by
  have := hl.tiles.bounds hb
  have := hl.tiles.size_pos hb
  simp only [Piece.stop] at *
  omega

/-- The sizes of the allocated blocks, summed over their owners. -/
theorem sum_owned {f : Allocation → ℕ} (hf : ∀ b ∈ bs, ∀ a, b.label = some a → f a = b.size) :
    (bs.map freeSize).sum + ((bs.filterMap Piece.label).map f).sum = (bs.map Piece.size).sum := by
  induction bs with
  | nil => rfl
  | cons b bs ih =>
    have hrest := ih fun c hc => hf c (List.mem_cons_of_mem b hc)
    cases hb : b.label with
    | none =>
      simp only [List.map_cons, List.sum_cons, List.filterMap_cons_none hb, freeSize, hb, if_true]
      omega
    | some a =>
      have hsize := hf b List.mem_cons_self a hb
      simp only [List.map_cons, List.sum_cons, List.filterMap_cons_some hb, freeSize, hb,
        reduceCtorEq, if_false, hsize]
      omega

/-- **The invariant gives what clients rely on.** -/
theorem Run.Laid.correct (hr : r.Laid base bytes bs) : r.Correct base bytes where
  aligned a ha := by
    obtain ⟨b, hb, hlabel⟩ := hr.block ha
    exact (hr.layout.owned b hb a hlabel).2.2
  fits a ha := by
    obtain ⟨b, hb, hlabel⟩ := hr.block ha
    obtain ⟨-, -, hsize⟩ := hr.layout.payload hb hlabel
    have := (hr.layout.owned b hb a hlabel).2.1
    rw [payloadSize, hsize]
    omega
  inside a ha := by
    obtain ⟨b, hb, hlabel⟩ := hr.block ha
    obtain ⟨hpointer, hstop, -⟩ := hr.layout.payload hb hlabel
    have hlt := hr.layout.nonempty_region hb
    obtain ⟨hbase, hend⟩ := hr.region.resolve_left hlt.ne
    have := hr.layout.tiles.bounds hb
    omega
  disjoint := by
    refine (hr.live.pairwise_iff Or.symm).mpr (List.pairwise_filterMap.mpr ?_)
    refine hr.layout.tiles.ordered.imp_of_mem fun hb hc hle a ha a' ha' => .inl ?_
    rw [(hr.layout.payload hb ha).2.1, (hr.layout.payload hc ha').1]
    exact hle.trans (Nat.le_add_right _ _)
  headers a ha x hx := by
    obtain ⟨b, hb, hlabel⟩ := hr.block ha
    obtain ⟨hpointer, hstop, -⟩ := hr.layout.payload hb hlabel
    rw [hr.layout.headers] at hx
    obtain ⟨c, hc, rfl⟩ := List.mem_map.mp hx
    obtain ⟨pre, post, rfl⟩ := List.append_of_mem hb
    have haround := hr.layout.around
    -- a header before the payload, its own, or one behind
    rcases List.mem_append.mp hc with hc | hc
    · have := (haround.tilesPre.bounds hc).2
      have := (haround.granularPre c hc).1
      simp only [Piece.stop, minBlock, headerBytes] at *
      omega
    · rcases List.mem_cons.mp hc with rfl | hc
      · exact .inl hpointer.ge
      · exact .inr (hstop ▸ (haround.tilesPost.bounds hc).1)
  available := by
    have hsum := sum_owned fun b hb a ha => (hr.layout.payload hb ha).2.2
    have htotal := hr.layout.tiles.sum_sizes
    rw [Heap.available, capacity, hr.layout.freeBytes, Word.sub_of_le hr.layout.tiles.le,
      (hr.live.map _).sum_eq, hsum]
    omega
  consistent := hr.layout.consistent

/-- A block that both layouts have keeps its payload. -/
theorem samePayload_of_keeps {r' : Run} {bs' cs : List Block} (hl : Layout r.heap bs)
    (hl' : Layout r'.heap bs') (hb : b ∈ bs) (hb' : b ∈ bs') (hcs : b ∈ cs) (ha : b.label = some a)
    (hkeeps : Keeps r.heap.mem r'.heap.mem cs) : SamePayload r r' a := by
  obtain ⟨hpointer, hstop, -⟩ := hl.payload hb ha
  have hstop' := (hl'.payload hb' ha).2.1
  refine ⟨by omega, fun i hi => hkeeps b hcs (by simp [ha]) _ (by omega) (by omega)⟩

/-! ## Runs -/

theorem step_allocate (hr : r.Laid base bytes bs) (n alignment : ℕ) :
    ∃ bs', (r.step (.allocate n alignment)).Laid base bytes bs' ∧
      ∀ a ∈ r.live, SamePayload r (r.step (.allocate n alignment)) a := by
  rcases allocate_spec hr.layout n alignment with hnull |
    ⟨pre, c, post, cut, a, rfl, hfree, hn, halign, hne, hresult, hlayout, howners, hkeeps, hbegin,
      hend⟩
  · refine ⟨bs, ?_, fun a _ => ?_⟩ <;> simp only [Run.step, hnull, if_true]
    · exact hr
    · exact ⟨rfl, fun _ _ => rfl⟩
  · refine ⟨pre ++ cut ++ post, ⟨hlayout, ?_, ?_⟩, fun a' ha' => ?_⟩
    · have hnew : (⟨(allocate r.heap n alignment).1, n, alignment⟩ : Allocation) = a := by
        rw [hresult, ← hn, ← halign]
      have hlive := hr.live
      rw [List.filterMap_append, List.filterMap_cons_none hfree] at hlive
      simp only [Run.step, hresult, if_neg hne] at hnew ⊢
      rw [hnew, List.filterMap_append, List.filterMap_append, howners, List.append_assoc]
      exact (hlive.cons a).trans List.perm_middle.symm
    · rw [Run.step, hbegin, hend]
      exact hr.region
    · obtain ⟨b, hb, hlabel⟩ := hr.block ha'
      have hmem : b ∈ pre ++ post := by
        rcases List.mem_append.mp hb with hb | hb
        · exact List.mem_append_left _ hb
        · rcases List.mem_cons.mp hb with rfl | hb
          · simp [hfree] at hlabel
          · exact List.mem_append_right _ hb
      have hmem' : b ∈ pre ++ cut ++ post := by
        rcases List.mem_append.mp hmem with hb | hb
        · exact List.mem_append_left _ (List.mem_append_left _ hb)
        · exact List.mem_append_right _ hb
      exact samePayload_of_keeps hr.layout hlayout hb hmem' hmem hlabel hkeeps

theorem step_free (hr : r.Laid base bytes bs) (pointer : ℕ) :
    ∃ bs', (r.step (.free pointer)).Laid base bytes bs' ∧
      ∀ a ∈ (r.step (.free pointer)).live, SamePayload r (r.step (.free pointer)) a := by
  -- the pointer of a live allocation determines its block
  have hpointer : ∀ b ∈ bs, ∀ a, b.label = some a → a.pointer = b.start + headerBytes :=
    fun b hb a ha => (hr.layout.owned b hb a ha).1
  rcases free_spec hr.layout pointer with ⟨hsame, hnone⟩ |
    ⟨pre, b, post, bs', rfl, hused, rfl, hlayout, howners, hkept, hkeeps, hbegin, hend⟩
  · have hlive : r.live.filter (·.pointer ≠ pointer) = r.live := by
      refine List.filter_eq_self.mpr fun a ha => ?_
      obtain ⟨b, hb, hlabel⟩ := hr.block ha
      simpa [hpointer b hb a hlabel] using hnone b hb (by simp [hlabel])
    refine ⟨bs, ?_, fun a _ => ?_⟩ <;> simp only [Run.step, hsame, hlive]
    · exact hr
    · exact ⟨rfl, fun _ _ => rfl⟩
  · obtain ⟨a, ha⟩ := Option.ne_none_iff_exists'.mp hused
    have hb := hr.layout.around
    have hmem : pre ++ post ⊆ pre ++ b :: post :=
      ((List.sublist_cons_self b post).append_left pre).subset
    -- no other allocation has this pointer
    have hother : ∀ x ∈ (pre ++ post).filterMap Piece.label,
        decide (x.pointer ≠ b.start + headerBytes) = true := by
      intro x hx
      obtain ⟨c, hc, hlabel⟩ := List.mem_filterMap.mp hx
      have hne : c.start ≠ b.start := by
        rcases List.mem_append.mp hc with hc | hc
        · have := (hb.tilesPre.bounds hc).2
          have := hb.tilesPre.size_pos hc
          simp only [Piece.stop] at *
          omega
        · have := (hb.tilesPost.bounds hc).1
          have := hb.minSize
          omega
      simpa [hpointer c (hmem hc) x hlabel] using hne
    have hlive : (r.live.filter (·.pointer ≠ b.start + headerBytes)).Perm
        ((pre ++ post).filterMap Piece.label) := by
      refine (hr.live.filter _).trans (List.Perm.of_eq ?_)
      have hgone : a.pointer = b.start + headerBytes := hpointer b (by simp) a ha
      rw [← List.filter_eq_self.mpr hother]
      simp [List.filterMap_cons_some ha, hgone]
    refine ⟨bs', ⟨hlayout, howners ▸ hlive, ?_⟩, fun x hx => ?_⟩
    · rw [Run.step, hbegin, hend]
      exact hr.region
    · obtain ⟨c, hc, hlabel⟩ := List.mem_filterMap.mp (hlive.mem_iff.mp hx)
      exact samePayload_of_keeps hr.layout hlayout (hmem hc) (hkept c hc (by simp [hlabel])) hc
        hlabel hkeeps

theorem step_write (hr : r.Laid base bytes bs) (a : Allocation) (offset : ℕ) (byte : UInt8) :
    (r.step (.write a offset byte)).Laid base bytes bs := by
  rw [Run.step]
  split_ifs with hwrite
  · obtain ⟨hlive, hoffset⟩ := hwrite
    obtain ⟨b, hb, hlabel⟩ := hr.block hlive
    obtain ⟨hpointer, hstop, -⟩ := hr.layout.payload hb hlabel
    exact ⟨hr.layout.write hb (by simp [hlabel]) (by omega) (by omega) byte, hr.live, hr.region⟩
  · exact hr

/-- **One step** keeps the heap laid out, and a call changes no payload that stays live. -/
theorem step_preserves (hr : r.Laid base bytes bs) (s : Step) :
    ∃ bs', (r.step s).Laid base bytes bs' ∧
      (s.IsCall → ∀ a ∈ r.live, a ∈ (r.step s).live → SamePayload r (r.step s) a) := by
  cases s with
  | allocate n alignment =>
    obtain ⟨bs', hlaid, hsame⟩ := step_allocate hr n alignment
    exact ⟨bs', hlaid, fun _ a ha _ => hsame a ha⟩
  | free pointer =>
    obtain ⟨bs', hlaid, hsame⟩ := step_free hr pointer
    exact ⟨bs', hlaid, fun _ a _ ha => hsame a ha⟩
  | write a offset byte => exact ⟨bs, step_write hr a offset byte, False.elim⟩

theorem foldl_preserves (hr : r.Laid base bytes bs) (steps : List Step) :
    ∃ bs', (steps.foldl Run.step r).Laid base bytes bs' := by
  induction steps using List.reverseRecOn with
  | nil => exact ⟨bs, hr⟩
  | append_singleton steps s ih =>
    obtain ⟨bs', hlaid⟩ := ih
    obtain ⟨bs'', hlaid', -⟩ := step_preserves hlaid s
    rw [List.foldl_concat]
    exact ⟨bs'', hlaid'⟩

/-- **Every run** keeps the heap laid out. -/
theorem run_preserves (mem : Mem) (hbase : base < Word.size)
    (hregion : base + defaultAlignment ≤ Word.size ∨ Word.size ≤ base + bytes)
    (steps : List Step) : ∃ bs, (run base bytes mem steps).Laid base bytes bs := by
  obtain ⟨bs, hlayout, howners, hinside⟩ := initializeHeap_layout mem hbase hregion
  exact foldl_preserves ⟨hlayout, by rw [howners], hinside⟩ steps

/-- **Correctness of the heap.** After any calls and client writes, every live allocation has
its bytes, aligned, inside the region and apart from every other payload and every header; the
accounting is right and `consistent` accepts the heap; and the next call changes no payload
that stays live. -/
theorem run_heap_correct (base bytes : ℕ) (mem : Mem) (hregion : base + bytes + 16 < Word.size)
    (steps : List Step) :
    (run base bytes mem steps).Correct base bytes ∧
      ∀ call : Step, call.IsCall →
        ∀ a ∈ (run base bytes mem steps).live,
          a ∈ ((run base bytes mem steps).step call).live →
            SamePayload (run base bytes mem steps) ((run base bytes mem steps).step call) a := by
  have hbase : base + defaultAlignment ≤ Word.size := by
    rw [defaultAlignment]
    omega
  obtain ⟨bs, hlaid⟩ := run_preserves mem (by omega) (.inl hbase) steps
  refine ⟨hlaid.correct, fun call hcall => ?_⟩
  obtain ⟨-, -, hsame⟩ := step_preserves hlaid call
  exact hsame hcall

/-- Two allocations, one of them aligned to 64 bytes, and one released. -/
def sampleSteps : List Step :=
  [.allocate 24 8, .allocate 100 64, .write ⟨4112, 24, 8⟩ 3 7, .free 4112, .allocate 8 16]

theorem run_heap_correct_sample :
    4096 + 1024 + 16 < Word.size ∧
      (run 4096 1024 (fun _ => 0) sampleSteps).live = [⟨4112, 8, 16⟩, ⟨4160, 100, 64⟩] ∧
      (run 4096 1024 (fun _ => 0) sampleSteps).Correct 4096 1024 :=
  ⟨by decide, by decide +kernel, (run_heap_correct 4096 1024 _ (by decide) sampleSteps).1⟩

end ShirleysOS.Heap
