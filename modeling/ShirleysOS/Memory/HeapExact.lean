import ShirleysOS.Memory.HeapCorrect

/-!
# Freeing and allocating are exact

A pointer that is not that of a live allocation is ignored by `free`, whatever the payloads hold,
and when every live allocation has been freed, in whatever order, the heap is one free block
again: neighbours that are both free are always one block, and what has no owner is free.

`allocate` tries one place in each free block, or two: the first aligned one, and when that would
leave a gap too small for a block the first one that leaves enough. No place further on fits when
that one does not, so a request is turned down only when no free block has a place for it.

In a region that begins in the last 15 bytes of memory nothing is found: its address is rounded up
to 0, the null pointer.
-/

namespace ShirleysOS.Heap

open Lib

variable {h : State} {b : Block} {bs : List Block} {base bytes : ℕ} {r : Run}

/-! ## Freeing -/

/-- The heap is one free block, unless it is empty. -/
def Whole (h : State) : Prop :=
  capacity h = 0 ∨
    headers h = [h.heapBegin] ∧ blockSize h.mem h.heapBegin = capacity h ∧
      blockTag h.mem h.heapBegin = freeTag ∧ h.freeHead = h.heapBegin ∧
      blockNext h.mem h.heapBegin = 0

/-- **A pointer that no live allocation has** is ignored. -/
theorem Run.Laid.free_other (hr : r.Laid base bytes bs) {pointer : ℕ}
    (hother : ∀ a ∈ r.live, a.pointer ≠ pointer) : free r.heap pointer = r.heap := by
  rcases free_spec hr.layout pointer with ⟨hsame, -⟩ | ⟨pre, b, post, -, rfl, hused, hpointer, -⟩
  · exact hsame
  · obtain ⟨a, ha⟩ := Option.ne_none_iff_exists'.mp hused
    have hmem : b ∈ pre ++ b :: post := List.mem_append_right _ List.mem_cons_self
    have hlive : a ∈ r.live := hr.live.mem_iff.mpr (List.mem_filterMap.mpr ⟨b, hmem, ha⟩)
    exact absurd ((hr.layout.owned b hmem a ha).1.trans hpointer) (hother a hlive)

/-- With nothing allocated there is one free block, or none. -/
theorem Layout.whole (hl : Layout h bs) (hfree : ∀ b ∈ bs, b.label = none) : Whole h := by
  have hlt := hl.heapEnd_lt
  cases bs with
  | nil =>
    have hempty : h.heapBegin = h.heapEnd := hl.tiles
    exact .inl (by rw [capacity, hempty, Word.sub_of_le (Nat.le_refl _), Nat.sub_self])
  | cons b rest =>
    have hb := hfree b List.mem_cons_self
    -- a second block would be free as well, next to the first
    have hrest : rest = [] := by
      cases rest with
      | nil => rfl
      | cons c rest =>
        obtain ⟨-, -, -, hhead⟩ : Separated [] ∧ _ := (separated_free_iff hb).mp hl.separated
        exact absurd (hfree c (by simp)) (hhead c rfl)
    subst hrest
    obtain ⟨hstart, -, hstop⟩ := hl.tiles
    obtain ⟨hsize, htag, hnext, -⟩ := hl.represents
    have hstop : b.start + b.size = h.heapEnd := hstop
    have hhead := hl.head
    rw [firstFree_cons_free hb] at hhead
    rw [hstart] at hsize htag hnext hhead
    refine .inr ⟨?_, ?_, ?_, hhead, hnext hb⟩
    · rw [hl.headers, List.map_singleton, hstart]
    · rw [hsize, capacity, Word.sub_of_le (by omega)]
      omega
    · rw [htag, tagOf, if_pos hb]

theorem Layout.free_region (hl : Layout h bs) (pointer : ℕ) :
    (free h pointer).heapBegin = h.heapBegin ∧ (free h pointer).heapEnd = h.heapEnd := by
  rcases free_spec hl pointer with ⟨hsame, -⟩ | ⟨-, -, -, -, -, -, -, -, -, -, -, hregion⟩
  · exact ⟨congrArg State.heapBegin hsame, congrArg State.heapEnd hsame⟩
  · exact hregion

theorem Run.Laid.frees (hr : r.Laid base bytes bs) (order : List ℕ) :
    ∃ bs', Run.Laid base bytes
        ⟨order.foldl free r.heap, r.live.filter fun a => a.pointer ∉ order⟩ bs' ∧
      (order.foldl free r.heap).heapBegin = r.heap.heapBegin ∧
      (order.foldl free r.heap).heapEnd = r.heap.heapEnd := by
  induction order generalizing r bs with
  | nil => exact ⟨bs, by simpa using hr, rfl, rfl⟩
  | cons pointer order ih =>
    obtain ⟨bs', hr', -⟩ := step_free hr pointer
    obtain ⟨bs'', hr'', hbegin, hend⟩ := ih hr'
    have hlive : (r.step (.free pointer)).live.filter (fun a => a.pointer ∉ order) =
        r.live.filter fun a => a.pointer ∉ pointer :: order := by
      simp only [Run.step, List.filter_filter, List.mem_cons, not_or]
      refine List.filter_congr fun a _ => ?_
      simp [Bool.and_comm]
    rw [hlive] at hr''
    obtain ⟨hfirst, hlast⟩ := hr.layout.free_region pointer
    exact ⟨bs'', hr'', hbegin.trans hfirst, hend.trans hlast⟩

/-- **Freeing everything**, in any order. -/
theorem Run.Laid.free_all (hr : r.Laid base bytes bs) {order : List ℕ}
    (horder : order.Perm (r.live.map Allocation.pointer)) :
    Whole (order.foldl free r.heap) ∧
      available (order.foldl free r.heap) = capacity (order.foldl free r.heap) ∧
      capacity (order.foldl free r.heap) = capacity r.heap := by
  obtain ⟨bs', hr', hbegin, hend⟩ := hr.frees order
  have hnone : (r.live.filter fun a => a.pointer ∉ order) = [] := by
    refine List.filter_eq_nil_iff.mpr fun a ha => ?_
    have hmem : a.pointer ∈ order := horder.mem_iff.mpr (List.mem_map_of_mem ha)
    simpa using hmem
  rw [hnone] at hr'
  have hfree : ∀ b ∈ bs', b.label = none :=
    List.filterMap_eq_nil_iff.mp (List.nil_perm.mp hr'.live)
  have havailable := hr'.correct.available
  rw [List.map_nil, List.sum_nil, Nat.add_zero] at havailable
  exact ⟨hr'.layout.whole hfree, havailable, by rw [capacity, capacity, hbegin, hend]⟩

/-! ## A region at the top of memory -/

/-- The heap over all of memory that `initialize` makes of a region in its last 15 bytes. -/
def topHeap (mem : Mem) : State :=
  ⟨0, Word.size - 16, 0, Word.size - 16, makeFree mem 0 (Word.size - 16) 0⟩

theorem initializeHeap_top {base bytes : ℕ} (htop : Word.size < base + defaultAlignment)
    (hfits : base + bytes < Word.size) (mem : Mem) :
    initializeHeap base bytes mem = topHeap mem := by
  have hsize : defaultAlignment ∣ Word.size := by decide
  have hwrap : alignUp base defaultAlignment = 0 := by
    rcases alignUp_cases base (show 0 < defaultAlignment by decide) (by decide) (by omega) with
      ⟨hzero, -⟩ | ⟨hdvd, hge, -⟩
    · exact hzero
    · -- there is no multiple of 16 this high
      have hlt : alignUp base defaultAlignment < Word.size :=
        Nat.lt_of_le_of_lt (Nat.sub_le _ _) (Nat.mod_lt _ (by decide))
      simp only [defaultAlignment] at *
      omega
  have hstop : Word.add base bytes - Word.add base bytes % defaultAlignment = Word.size - 16 := by
    rw [Word.add_of_lt hfits]
    simp only [defaultAlignment] at *
    omega
  have hgood : ¬ (base = 0 ∨ bytes > Word.size - 1 - base) := by
    have : defaultAlignment < Word.size := by decide
    omega
  simp only [initializeHeap, hwrap, hstop]
  rw [if_neg hgood]
  rfl

theorem topHeap_header (mem : Mem) :
    blockSize (topHeap mem).mem 0 = Word.size - 16 ∧ blockTag (topHeap mem).mem 0 = freeTag ∧
      blockNext (topHeap mem).mem 0 = 0 := by
  obtain ⟨hsize, htag, hnext, -⟩ : Represents (makeFree mem 0 (Word.size - 16) 0) 0
      [⟨0, Word.size - 16, none⟩] := makeFree_represents (by decide) (by decide)
  exact ⟨hsize, htag, hnext rfl⟩

theorem topHeap_end_pos (mem : Mem) : 0 < (topHeap mem).heapEnd :=
  show 0 < Word.size - 16 by decide

theorem topHeap_whole (mem : Mem) : Whole (topHeap mem) := by
  obtain ⟨hsize, htag, hnext⟩ := topHeap_header mem
  have hcapacity : capacity (topHeap mem) = Word.size - 16 := Word.sub_of_le (Nat.zero_le _)
  have hfuel : (topHeap mem).heapEnd - (topHeap mem).heapBegin = Word.size - 18 + 2 :=
    show Word.size - 16 - 0 = Word.size - 18 + 2 by decide
  refine .inr ⟨?_, ?_, htag, rfl, hnext⟩
  · have hnext : Word.add 0 (Word.size - 16) = Word.size - 16 := by decide
    have hlast : ¬Word.size - 16 < (topHeap mem).heapEnd := Nat.lt_irrefl _
    rw [headers, hfuel, show (topHeap mem).heapBegin = 0 from rfl, headersFrom,
      if_pos (topHeap_end_pos mem), hsize, hnext, headersFrom, if_neg hlast]
  · exact hsize.trans hcapacity.symm

theorem topHeap_allocate (mem : Mem) (n alignment : ℕ) :
    allocate (topHeap mem) n alignment = (0, topHeap mem) := by
  have hloop : ∀ payloadBytes alignment fuel,
      allocateFrom (topHeap mem) payloadBytes alignment fuel none = (0, topHeap mem) := by
    intro payloadBytes alignment fuel
    cases fuel with
    | zero => rfl
    | succ fuel => rfl
  rw [allocate]
  split
  · rfl
  · simp only [hloop, ite_self]

theorem topHeap_free (mem : Mem) (pointer : ℕ) : free (topHeap mem) pointer = topHeap mem := by
  obtain ⟨hsize, htag, -⟩ := topHeap_header mem
  have hfuel : (topHeap mem).heapEnd - (topHeap mem).heapBegin = Word.size - 18 + 2 :=
    show Word.size - 16 - 0 = Word.size - 18 + 2 by decide
  -- the only boundary the walk meets is that of the free block at 0
  have hwalk : ∀ header, allocatedBlock (topHeap mem) header = false := by
    intro header
    have hnext : Word.add 0 (Word.size - 16) = Word.size - 16 := by decide
    have hlast : ¬Word.size - 16 < (topHeap mem).heapEnd := Nat.lt_irrefl _
    have hbig : ¬(0 > header ∨ Word.size - 16 < minBlock) :=
      not_or.mpr ⟨Nat.not_lt_zero _, by decide⟩
    rw [allocatedBlock, hfuel, show (topHeap mem).heapBegin = 0 from rfl, allocatedFrom,
      if_pos (topHeap_end_pos mem), hsize, htag, if_neg hbig, hnext,
      allocatedFrom, if_neg hlast]
    split
    · decide
    · rfl
  rw [free, hwalk]
  split
  · rfl
  split
  · rfl
  · rfl

/-- Nothing ever happens in such a heap. -/
theorem run_top {base : ℕ} {bytes : ℕ} {mem : Mem}
    (htop : initializeHeap base bytes mem = topHeap mem) (steps : List Step) :
    run base bytes mem steps = ⟨topHeap mem, []⟩ := by
  induction steps using List.reverseRecOn with
  | nil => rw [run, List.foldl_nil, htop]
  | append_singleton steps step ih =>
    rw [run, List.foldl_concat]
    rw [run] at ih
    rw [ih]
    cases step with
    | allocate n alignment => rw [Run.step, topHeap_allocate]; rfl
    | free pointer => rw [Run.step, topHeap_free]; rfl
    | write a offset byte => simp [Run.step]

/-- **`free` is exact.** In every state of the heap, a pointer that is not that of a live allocation
is ignored, and freeing the live allocations in any order leaves one free block of the heap's
capacity, all of it available. -/
theorem run_free_exact {base : ℕ} (hbase : base < Word.size) (bytes : ℕ) (mem : Mem)
    (steps : List Step) :
    let r := run base bytes mem steps
    (∀ pointer, (∀ a ∈ r.live, a.pointer ≠ pointer) → free r.heap pointer = r.heap) ∧
      ∀ order : List ℕ, order.Perm (r.live.map Allocation.pointer) →
        Whole (order.foldl free r.heap) ∧
          available (order.foldl free r.heap) = capacity (order.foldl free r.heap) ∧
          capacity (order.foldl free r.heap) = capacity r.heap := by
  intro r
  by_cases hregion : base + defaultAlignment ≤ Word.size ∨ Word.size ≤ base + bytes
  · obtain ⟨bs, hr⟩ := run_preserves mem hbase hregion steps
    exact ⟨fun pointer hother => hr.free_other hother, fun order horder => hr.free_all horder⟩
  · obtain ⟨htop, hfits⟩ := not_or.mp hregion
    have hr : r = ⟨topHeap mem, []⟩ :=
      run_top (initializeHeap_top (Nat.not_le.mp htop) (Nat.not_le.mp hfits) mem) steps
    rw [hr]
    refine ⟨fun pointer _ => topHeap_free mem pointer, fun order horder => ?_⟩
    obtain rfl : order = [] := List.perm_nil.mp horder
    exact ⟨topHeap_whole mem, (Word.sub_of_le (Nat.zero_le _)).symm, rfl⟩

/-- The two allocations of the sample, freed in either order. -/
theorem run_free_exact_sample :
    4096 < Word.size ∧
      [4160, 4112].Perm ((run 4096 1024 (fun _ => 0) sampleSteps).live.map Allocation.pointer) ∧
      Whole ([4160, 4112].foldl free (run 4096 1024 (fun _ => 0) sampleSteps).heap) ∧
      Whole ([4112, 4160].foldl free (run 4096 1024 (fun _ => 0) sampleSteps).heap) := by
  have hlive : (run 4096 1024 (fun _ => 0) sampleSteps).live.map Allocation.pointer =
      [4112, 4160] := by decide +kernel
  have hall := (run_free_exact (show 4096 < Word.size by decide) 1024 (fun _ => 0) sampleSteps).2
  rw [hlive] at hall ⊢
  have hswap : [4160, 4112].Perm [4112, 4160] := List.Perm.swap _ _ _
  exact ⟨by decide, hswap, (hall _ hswap).1, (hall _ (List.Perm.refl _)).1⟩

/-! ## Allocating -/

/-- The block of a live allocation begins at its header. -/
def Allocation.start (a : Allocation) : ℕ := a.pointer - headerBytes

/-- Where the block of a live allocation ends. -/
def Allocation.stop (m : Mem) (a : Allocation) : ℕ := a.start + blockSize m a.start

/-- `[s, e)` is a maximal free block: no live block has a part of it, and on either side there is
one, or the end of the heap. -/
structure Run.MaximalFree (r : Run) (s e : ℕ) : Prop where
  proper : s < e
  first : s = r.heap.heapBegin ∨ ∃ a ∈ r.live, a.stop r.heap.mem = s
  last : e = r.heap.heapEnd ∨ ∃ a ∈ r.live, a.start = e
  inside : r.heap.heapBegin ≤ s ∧ e ≤ r.heap.heapEnd
  apart : ∀ a ∈ r.live, a.stop r.heap.mem ≤ s ∨ e ≤ a.start

/-- The bytes that are set aside for a request. -/
def roundUp (n : ℕ) : ℕ := (n + 15) / 16 * 16

/-- A header at `header` in the free block `[s, e)` serves a request of `n` bytes: its payload is
aligned, the gap in front is none or holds a block, and the payload is inside. -/
structure Placeable (s e n alignment header : ℕ) : Prop where
  inside : s ≤ header
  aligned : max alignment defaultAlignment ∣ header + headerBytes
  gap : header = s ∨ s + minBlock ≤ header
  room : header + headerBytes + roundUp n ≤ e

variable {a : Allocation} {s e alignment n : ℕ}

theorem Layout.owned_bounds (hl : Layout h bs) (hb : b ∈ bs) (ha : b.label = some a) :
    a.start = b.start ∧ a.stop h.mem = b.stop := by
  have hstart : a.start = b.start := by
    rw [Allocation.start, (hl.owned b hb a ha).1, Nat.add_sub_cancel]
  exact ⟨hstart, by rw [Allocation.stop, hstart, (hl.represents.header hb).1, Piece.stop]⟩

theorem Run.Laid.block_of_live (hr : r.Laid base bytes bs) (ha : a ∈ r.live) :
    ∃ b ∈ bs, b.label ≠ none ∧ a.start = b.start ∧ a.stop r.heap.mem = b.stop := by
  obtain ⟨b, hb, hlabel⟩ := hr.block ha
  exact ⟨b, hb, by rw [hlabel]; exact Option.some_ne_none a, hr.layout.owned_bounds hb hlabel⟩

theorem Run.Laid.live_of_block (hr : r.Laid base bytes bs) (hb : b ∈ bs) (hused : b.label ≠ none) :
    ∃ a ∈ r.live, a.start = b.start ∧ a.stop r.heap.mem = b.stop := by
  obtain ⟨a, ha⟩ := Option.ne_none_iff_exists'.mp hused
  have hlive : a ∈ r.live := hr.live.mem_iff.mpr (List.mem_filterMap.mpr ⟨b, hb, ha⟩)
  exact ⟨a, hlive, hr.layout.owned_bounds hb ha⟩

theorem Run.Laid.start_lt_stop (hr : r.Laid base bytes bs) (ha : a ∈ r.live) :
    a.start < a.stop r.heap.mem := by
  obtain ⟨b, hb, -, hstart, hstop⟩ := hr.block_of_live ha
  rw [hstart, hstop]
  exact Nat.lt_add_of_pos_right (hr.layout.tiles.size_pos hb)

/-- Of two maximal free blocks with a common place neither reaches further than the other. -/
theorem Run.MaximalFree.within {s' e' : ℕ} (hr : r.Laid base bytes bs) (hfree : r.MaximalFree s e)
    (hfree' : r.MaximalFree s' e') (hlo : s < e') (hhi : s' < e) : s ≤ s' ∧ e' ≤ e := by
  have hinside := hfree'.inside
  constructor
  · rcases hfree.first with heq | ⟨a, ha, heq⟩
    · omega
    · have := hfree'.apart a ha
      have := hr.start_lt_stop ha
      omega
  · rcases hfree.last with heq | ⟨a, ha, heq⟩
    · omega
    · have := hfree'.apart a ha
      have := hr.start_lt_stop ha
      omega

/-- A free block of the layout is maximal. -/
theorem Run.Laid.maximalFree (hr : r.Laid base bytes bs) (hb : b ∈ bs) (hfree : b.label = none) :
    r.MaximalFree b.start b.stop where
  proper := Nat.lt_add_of_pos_right (hr.layout.tiles.size_pos hb)
  first := by
    obtain ⟨pre, post, rfl⟩ := List.append_of_mem hb
    obtain ⟨hpre, -, -⟩ := tiles_append_cons.mp hr.layout.tiles
    obtain ⟨-, -, hlast, -⟩ := (separated_free_iff hfree).mp hr.layout.separated
    rcases List.eq_nil_or_concat pre with rfl | ⟨pre, c, rfl⟩
    · exact .inl (Eq.symm hpre)
    · rw [List.concat_eq_append] at hpre hr hlast
      obtain ⟨-, -, hstop⟩ := tiles_append_cons.mp hpre
      have hc := hlast c (by simp)
      obtain ⟨a, ha, -, hend⟩ := hr.live_of_block (b := c) (by simp) hc
      exact .inr ⟨a, ha, hend.trans hstop⟩
  last := by
    obtain ⟨pre, post, rfl⟩ := List.append_of_mem hb
    obtain ⟨-, -, hpost⟩ := tiles_append_cons.mp hr.layout.tiles
    obtain ⟨-, -, -, hhead⟩ := (separated_free_iff hfree).mp hr.layout.separated
    cases post with
    | nil => exact .inl hpost
    | cons c post =>
      obtain ⟨a, ha, hstart, -⟩ := hr.live_of_block (b := c) (by simp) (hhead c rfl)
      exact .inr ⟨a, ha, hstart.trans hpost.1⟩
  inside := hr.layout.tiles.bounds hb
  apart a ha := by
    obtain ⟨c, hc, hused, hstart, hstop⟩ := hr.block_of_live ha
    have hne : c ≠ b := fun heq => hused (heq ▸ hfree)
    rw [hstart, hstop]
    exact hr.layout.tiles.apart hc hb hne

/-- **The maximal free blocks** are the free blocks of the layout. -/
theorem Run.Laid.maximalFree_iff (hr : r.Laid base bytes bs) :
    r.MaximalFree s e ↔ ∃ b ∈ bs, b.label = none ∧ b.start = s ∧ b.stop = e := by
  constructor
  · intro hfree
    have hproper := hfree.proper
    have hinside := hfree.inside
    obtain ⟨b, hb, hlo, hhi⟩ := hr.layout.tiles.exists_mem hinside.1 (by omega)
    have hnone : b.label = none := by
      by_contra hused
      obtain ⟨a, ha, hstart, hstop⟩ := hr.live_of_block hb hused
      have := hfree.apart a ha
      omega
    have hmax := hr.maximalFree hb hnone
    have hthere := hfree.within hr hmax hhi (by omega)
    have hback := hmax.within hr hfree (by omega) hhi
    exact ⟨b, hb, hnone, by omega, by omega⟩
  · rintro ⟨b, hb, hnone, rfl, rfl⟩
    exact hr.maximalFree hb hnone

/-- The next multiple is the least one that is not below `value`, if there is one at all. -/
theorem alignUp_least {value payload : ℕ} (hpos : 0 < alignment) (hsize : alignment ∣ Word.size)
    (hdvd : alignment ∣ payload) (hle : value ≤ payload) (hlt : payload < Word.size) :
    value ≤ alignUp value alignment ∧ alignUp value alignment ≤ payload := by
  have ha : alignment ≤ Word.size := Nat.le_of_dvd (by decide) hsize
  rcases alignUp_cases value hpos ha (by omega) with ⟨-, hwrap⟩ | ⟨hdvd', hge, hnext⟩
  · -- the last multiple below the top of memory is a whole `alignment` below it
    have := Nat.le_of_lt_add_of_dvd (show Word.size < payload + alignment by omega) hsize hdvd
    omega
  · exact ⟨hge, Nat.le_of_lt_add_of_dvd (by omega) hdvd' hdvd⟩

/-- **No place is skipped**: the payload is not behind any aligned place that leaves no gap, or one
for a block. -/
theorem placement_least {start payload : ℕ} (hpos : 0 < alignment) (hsize : alignment ∣ Word.size)
    (hdvd : alignment ∣ payload) (hgap : payload = start + 16 ∨ start + 48 ≤ payload)
    (hlt : payload < Word.size) :
    start + 16 ≤ placement start alignment ∧ placement start alignment ≤ payload := by
  obtain ⟨hge, hle⟩ := alignUp_least hpos hsize hdvd (show start + 16 ≤ payload by omega) hlt
  have hadd : Word.add start headerBytes = start + 16 :=
    Word.add_of_lt (by simp only [headerBytes]; omega)
  have hheader : headerBytes ≤ alignUp (start + 16) alignment := by
    simp only [headerBytes]
    omega
  have hstart : start ≤ alignUp (start + 16) alignment - headerBytes := by
    simp only [headerBytes]
    omega
  simp only [placement, hadd, Word.sub_of_le hheader, Word.sub_of_le hstart]
  split_ifs with hsmall
  · -- the first aligned place is behind the header, so `payload` is not there either
    have hfar : start + 48 ≤ payload := by
      simp only [headerBytes, minBlock] at hsmall
      omega
    have hbehind : Word.add (Word.add start minBlock) headerBytes = start + 48 := by
      rw [Word.add_of_lt (show start + minBlock < Word.size by simp only [minBlock]; omega)]
      exact Word.add_of_lt (show start + 48 < Word.size by omega)
    rw [hbehind]
    obtain ⟨hge', hle'⟩ := alignUp_least hpos hsize hdvd hfar hlt
    exact ⟨(show start + 16 ≤ start + 48 by omega).trans hge', hle'⟩
  · exact ⟨hge, hle⟩

theorem max_dvd_size (hpow : alignment.isPowerOfTwo)
    (hle : max alignment defaultAlignment ≤ Word.size) :
    max alignment defaultAlignment ∣ Word.size := by
  obtain ⟨k, -, heq⟩ := max_power hpow
  rw [heq] at hle ⊢
  exact Nat.pow_dvd_pow 2 ((Nat.pow_le_pow_iff_right (a := 2) (by decide)).mp hle)

theorem alignUp_eq_roundUp (hn : n + 15 < Word.size) : alignUp n defaultAlignment = roundUp n := by
  have hadd : Word.add n (defaultAlignment - 1) = n + 15 := Word.add_of_lt hn
  rw [alignUp, hadd, roundUp, defaultAlignment]
  omega

theorem Placeable.placement_le {header : ℕ} (hplace : Placeable s e n alignment header)
    (hpow : alignment.isPowerOfTwo) (hle : max alignment defaultAlignment ≤ Word.size)
    (he : e < Word.size) :
    s + 16 ≤ placement s (max alignment defaultAlignment) ∧
      placement s (max alignment defaultAlignment) ≤ header + 16 := by
  obtain ⟨-, hdvd, hgap, hroom⟩ := hplace
  simp only [headerBytes, minBlock] at hdvd hgap hroom
  have hpos : 0 < max alignment defaultAlignment :=
    Nat.lt_of_lt_of_le (by decide) (Nat.le_max_right _ _)
  exact placement_least hpos (max_dvd_size hpow hle) hdvd (by omega) (by omega)

/-- **The test of the loop** is passed just when the block has a place for the request. -/
theorem accepts_iff {pre post : List Block} {c : Block} (hc : Around h pre c post)
    (hpow : alignment.isPowerOfTwo) (hle : max alignment defaultAlignment ≤ Word.size) :
    Accepts c (max alignment defaultAlignment) (roundUp n) ↔
      ∃ header, Placeable c.start c.stop n alignment header := by
  have hhigh := hc.high
  constructor
  · rintro ⟨hstart, hroom⟩
    have hpos : 0 < max alignment defaultAlignment :=
      Nat.lt_of_lt_of_le (by decide) (Nat.le_max_right _ _)
    obtain ⟨hdvd, hgap, hroom⟩ := fits_of_accepted hpos hle (sixteen_dvd_max hpow)
      hc.alignedStart hc.alignedStop hc.minSize hhigh hstart hroom
    generalize placement c.start (max alignment defaultAlignment) = payload at *
    have hback : payload - 16 + headerBytes = payload := Nat.sub_add_cancel (by omega)
    refine ⟨payload - 16, by omega, by rwa [hback], ?_, by rwa [hback]⟩
    simp only [minBlock]
    omega
  · rintro ⟨header, hplace⟩
    obtain ⟨hge, hle⟩ := hplace.placement_le hpow hle (by omega)
    have hroom := hplace.room
    simp only [headerBytes] at hroom
    rw [Accepts, Word.sub_of_le (show headerBytes ≤ _ by simp only [headerBytes]; omega),
      Word.sub_of_le (by omega)]
    simp only [headerBytes]
    exact ⟨by omega, by omega⟩

/-- **`allocate`** serves a request just when a free block has a place for it. -/
theorem Layout.allocate_iff (hl : Layout h bs) (n : ℕ) (hpow : alignment.isPowerOfTwo)
    (hcapacity : alignment ≤ capacity h) :
    (allocate h n alignment).1 ≠ 0 ↔
      0 < n ∧ ∃ b ∈ bs, b.label = none ∧ ∃ header, Placeable b.start b.stop n alignment header := by
  have hhigh := hl.high
  have hpositive : alignment ≠ 0 ∧ alignment &&& (alignment - 1) = 0 :=
    Nat.ne_zero_and_sub_one_eq_zero_iff_isPowerOfTwo.mpr hpow
  rw [capacity, Word.sub_of_le hl.tiles.le] at hcapacity
  have hmax : (if alignment < defaultAlignment then defaultAlignment else alignment) =
      max alignment defaultAlignment := by
    split_ifs <;> omega
  have hfits : max alignment defaultAlignment ≤ h.heapEnd - h.heapBegin := by
    obtain ⟨b, hb, -, -⟩ := hl.tiles.exists_mem (Nat.le_refl h.heapBegin) (by omega)
    have := hl.tiles.bounds hb
    have := (hl.granular b hb).1
    simp only [minBlock, defaultAlignment, Piece.stop] at *
    omega
  simp only [allocate, hmax, Word.sub_of_le hl.tiles.le]
  by_cases hzero : n = 0
  · rw [if_pos (.inl hzero)]
    exact ⟨fun hne => absurd rfl hne, fun h => absurd hzero (Nat.ne_of_gt h.1)⟩
  rw [if_neg (by omega)]
  by_cases hbig : n > h.heapEnd - h.heapBegin
  · -- no block of the heap is as long
    rw [if_pos (.inl hbig)]
    refine ⟨fun hne => absurd rfl hne, ?_⟩
    rintro ⟨-, b, hb, -, header, hinside, -, -, hroom⟩
    have := hl.tiles.bounds hb
    simp only [roundUp, headerBytes] at hroom
    omega
  rw [if_neg (by omega), alignUp_eq_roundUp (by simp only [defaultAlignment] at hhigh; omega)]
  have haccepts : ∀ b ∈ bs, Accepts b (max alignment defaultAlignment) (roundUp n) ↔
      ∃ header, Placeable b.start b.stop n alignment header := by
    intro b hb
    obtain ⟨pre, post, rfl⟩ := List.append_of_mem hb
    exact accepts_iff hl.around hpow (by omega)
  rcases allocateFrom_spec (max alignment defaultAlignment) (roundUp n) hl
    (List.nil_append bs).symm linkAt_nil hl.tiles.length_le with ⟨hnull, hnone⟩ | hfound
  · rw [hnull]
    refine ⟨fun hne => absurd rfl hne, ?_⟩
    rintro ⟨-, b, hb, hfree, hplace⟩
    exact absurd ((haccepts b hb).mpr hplace) (hnone b hb hfree)
  · obtain ⟨pre, b, post, link, rfl, hfree, -, hacc, heq⟩ := hfound
    have hb : b ∈ pre ++ b :: post := List.mem_append_right _ List.mem_cons_self
    obtain ⟨header, hplace⟩ := (haccepts b hb).mp hacc
    obtain ⟨hge, -⟩ := hplace.placement_le hpow (by omega) (by have := hl.around.high; omega)
    rw [heq]
    exact ⟨fun _ => ⟨by omega, b, hb, hfree, header, hplace⟩, fun _ => by simp only; omega⟩

/-- The loop of `largest_available` finds a block for `x` bytes if there is one. -/
theorem le_largestFrom {m : Mem} {x largest fuel : ℕ} (hrep : Represents m 0 bs)
    (hstart : ∀ b ∈ bs, b.start ≠ 0) (hmin : ∀ b ∈ bs, minBlock ≤ b.size)
    (hfuel : bs.length ≤ fuel) :
    x ≤ largestFrom m fuel (firstFree 0 bs) largest ↔
      x ≤ largest ∨ ∃ b ∈ bs, b.label = none ∧ x + headerBytes ≤ b.size := by
  induction bs generalizing fuel largest with
  | nil =>
    cases fuel with
    | zero => simp [largestFrom]
    | succ fuel => simp [largestFrom]
  | cons b bs ih =>
    obtain ⟨fuel, rfl⟩ : ∃ k, fuel = k + 1 := ⟨fuel - 1, by simp at hfuel; omega⟩
    obtain ⟨hsize, -, hnext, hrest⟩ := hrep
    have hbig := hmin b List.mem_cons_self
    have hstart' := fun c hc => hstart c (List.mem_cons_of_mem b hc)
    have hmin' := fun c hc => hmin c (List.mem_cons_of_mem b hc)
    rw [List.exists_mem_cons_iff]
    by_cases hfree : b.label = none
    · have hfits : x ≤ b.size - headerBytes ↔ x + headerBytes ≤ b.size :=
        Nat.le_sub_iff_add_le (Nat.le_trans (by decide) hbig)
      rw [firstFree_cons_free hfree, largestFrom, if_neg (hstart b List.mem_cons_self), hnext hfree,
        ih hrest hstart' hmin' (by simpa using hfuel), hsize,
        Word.sub_of_le (Nat.le_trans (by decide) hbig), le_max_iff, hfits, or_assoc]
      simp only [hfree, true_and]
    · rw [firstFree_cons_used hfree, ih hrest hstart' hmin' (by simp at hfuel; omega)]
      simp only [hfree, false_and, false_or]

/-- **`largest_available`** is what the largest free block has behind its header. -/
theorem Layout.le_largestAvailable (hl : Layout h bs) {x : ℕ} :
    x ≤ largestAvailable h ↔
      x = 0 ∨ ∃ b ∈ bs, b.label = none ∧ x + headerBytes ≤ b.size := by
  have hstart : ∀ b ∈ bs, b.start ≠ 0 := by
    intro b hb
    obtain ⟨pre, post, rfl⟩ := List.append_of_mem hb
    have := hl.around.low
    omega
  rw [largestAvailable, hl.head,
    le_largestFrom hl.represents hstart (fun b hb => (hl.granular b hb).1) hl.tiles.length_le,
    Nat.le_zero]

/-- With the default alignment the place right at the front of a free block will do. -/
theorem Layout.placeable_default (hl : Layout h bs) (hb : b ∈ bs) (n : ℕ) :
    (∃ header, Placeable b.start b.stop n defaultAlignment header) ↔
      roundUp n + headerBytes ≤ b.size := by
  obtain ⟨pre, post, rfl⟩ := List.append_of_mem hb
  have haligned := hl.around.alignedStart
  constructor
  · rintro ⟨header, hinside, -, -, hroom⟩
    simp only [Piece.stop] at hroom
    omega
  · intro hroom
    refine ⟨b.start, Nat.le_refl _, ?_, .inl rfl, by simp only [Piece.stop]; omega⟩
    rw [max_self]
    exact Nat.dvd_add haligned (by decide)

/-- With the default alignment, `largest_available` decides. -/
theorem Layout.allocate_default (hl : Layout h bs) (n : ℕ) :
    (allocate h n defaultAlignment).1 ≠ 0 ↔ 0 < n ∧ roundUp n ≤ largestAvailable h := by
  have hround : 0 < n → roundUp n ≠ 0 := by
    intro hpos
    rw [roundUp]
    omega
  have hcapacity : capacity h = h.heapEnd - h.heapBegin := Word.sub_of_le hl.tiles.le
  rcases Nat.lt_or_ge (capacity h) defaultAlignment with hsmall | hlarge
  · -- there is no block at all
    have hnull : (allocate h n defaultAlignment).1 = 0 := by
      simp only [allocate, lt_irrefl, if_false]
      split_ifs with hbad hbig
      · rfl
      · rfl
      · exact absurd (.inr hsmall) hbig
    rw [hnull, hl.le_largestAvailable]
    refine ⟨fun hne => absurd rfl hne, ?_⟩
    rintro ⟨hpos, hzero | ⟨b, hb, -, -⟩⟩
    · exact absurd hzero (hround hpos)
    · have := hl.tiles.bounds hb
      have := (hl.granular b hb).1
      simp only [minBlock, defaultAlignment, Piece.stop] at *
      omega
  · have hpow : defaultAlignment.isPowerOfTwo := ⟨4, rfl⟩
    rw [hl.allocate_iff n hpow hlarge, hl.le_largestAvailable]
    refine and_congr_right fun hpos => ?_
    simp only [hround hpos, false_or]
    refine exists_congr fun b => and_congr_right fun hb => and_congr_right fun _ => ?_
    exact hl.placeable_default hb n

/-- **`allocate` is complete.** In every state of a heap whose region does not begin in the last 15
bytes of memory, or goes beyond its top, a request for `n` bytes, aligned to a power of two that is
not above the capacity, is served just when `n` is not 0 and a maximal free block has a place for
it; with the default alignment, when the bytes set aside for it are at most `largest_available`. -/
theorem run_allocate_complete {base bytes : ℕ} (hbase : base < Word.size)
    (hregion : base + defaultAlignment ≤ Word.size ∨ Word.size ≤ base + bytes) (mem : Mem)
    (steps : List Step) (n : ℕ) :
    let r := run base bytes mem steps
    (∀ alignment : ℕ, alignment.isPowerOfTwo → alignment ≤ capacity r.heap →
        ((allocate r.heap n alignment).1 ≠ 0 ↔
          0 < n ∧ ∃ s e header, r.MaximalFree s e ∧ Placeable s e n alignment header)) ∧
      ((allocate r.heap n defaultAlignment).1 ≠ 0 ↔
        0 < n ∧ roundUp n ≤ largestAvailable r.heap) := by
  intro r
  obtain ⟨bs, hr⟩ : ∃ bs, r.Laid base bytes bs := run_preserves mem hbase hregion steps
  have hl := hr.layout
  refine ⟨fun alignment hpow hcapacity => ?_, hl.allocate_default n⟩
  rw [hl.allocate_iff n hpow hcapacity]
  refine and_congr_right fun _ => ?_
  constructor
  · rintro ⟨b, hb, hfree, header, hplace⟩
    exact ⟨b.start, b.stop, header, hr.maximalFree hb hfree, hplace⟩
  · rintro ⟨s, e, header, hmax, hplace⟩
    obtain ⟨b, hb, hfree, rfl, rfl⟩ := hr.maximalFree_iff.mp hmax
    exact ⟨b, hb, hfree, header, hplace⟩

/-- After the sample, 200 bytes aligned to 64 still have a place. -/
theorem run_allocate_complete_sample :
    4096 + defaultAlignment ≤ Word.size ∧ Nat.isPowerOfTwo 64 ∧
      64 ≤ capacity (run 4096 1024 (fun _ => 0) sampleSteps).heap ∧
      (∃ s e header, (run 4096 1024 (fun _ => 0) sampleSteps).MaximalFree s e ∧
        Placeable s e 200 64 header) ∧
      200 ≤ largestAvailable (run 4096 1024 (fun _ => 0) sampleSteps).heap := by
  have hregion : 4096 + defaultAlignment ≤ Word.size := by decide
  have hcapacity : 64 ≤ capacity (run 4096 1024 (fun _ => 0) sampleSteps).heap := by decide +kernel
  have hserved : (allocate (run 4096 1024 (fun _ => 0) sampleSteps).heap 200 64).1 ≠ 0 := by
    decide +kernel
  have hserved' :
      (allocate (run 4096 1024 (fun _ => 0) sampleSteps).heap 200 defaultAlignment).1 ≠ 0 := by
    decide +kernel
  obtain ⟨hplace, hlargest⟩ := run_allocate_complete (show 4096 < Word.size by decide)
    (show _ ∨ Word.size ≤ 4096 + 1024 from .inl hregion) (fun _ => 0) sampleSteps 200
  have hround : roundUp 200 = 208 := by decide
  exact ⟨hregion, ⟨6, rfl⟩, hcapacity, ((hplace 64 ⟨6, rfl⟩ hcapacity).mp hserved).2,
    Nat.le_trans (by decide) (hround ▸ (hlargest.mp hserved').2)⟩

/-- A region in the last 15 bytes of memory: the heap says it has all of memory to give, in one
maximal free block with a place for a byte, and gives none. -/
theorem allocate_topRegion :
    let r := run (Word.size - 10) 5 (fun _ => 0) []
    Nat.isPowerOfTwo 16 ∧ 16 ≤ capacity r.heap ∧
      r.MaximalFree 0 (Word.size - 16) ∧ Placeable 0 (Word.size - 16) 1 16 0 ∧
      (allocate r.heap 1 16).1 = 0 := by
  intro r
  have hr : r = ⟨topHeap (fun _ => 0), []⟩ :=
    run_top (initializeHeap_top (by decide) (by decide) _) []
  rw [hr, topHeap_allocate]
  refine ⟨⟨4, rfl⟩, ?_, ⟨?_, .inl rfl, .inl rfl, ⟨Nat.le_refl 0, Nat.le_refl _⟩, by simp⟩,
    ⟨Nat.le_refl 0, by decide, .inl rfl, by decide⟩, rfl⟩
  · exact (show 16 ≤ Word.sub (Word.size - 16) 0 by decide)
  · decide

end ShirleysOS.Heap
