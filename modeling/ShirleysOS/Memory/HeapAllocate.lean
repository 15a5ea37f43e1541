import ShirleysOS.Memory.HeapLayout
import Mathlib.Data.Nat.Bits

/-!
# Allocation keeps the layout

`allocate` walks the free list to the first block in which the payload fits and cuts it out.
The cut leaves the layout of the heap with the free block replaced by up to three: a free gap
that alignment leaves in front, the allocated block, and a free tail.
-/

namespace ShirleysOS.Heap

open Lib

/-! ## Placement -/

variable {alignment payloadBytes lo hi size next x : ℕ} {a : Allocation}

/-- `align_up` goes to the next multiple, or wraps to 0 when that is past the top of memory. -/
theorem alignUp_cases (value : ℕ) (hpos : 0 < alignment) (ha : alignment ≤ Word.size)
    (hv : value < Word.size) :
    alignUp value alignment = 0 ∧ Word.size < value + alignment ∨
      alignment ∣ alignUp value alignment ∧ value ≤ alignUp value alignment ∧
        alignUp value alignment < value + alignment := by
  by_cases hfit : value + (alignment - 1) < Word.size
  · have hmod := Nat.mod_lt (value + (alignment - 1)) hpos
    rw [alignUp, Word.add_of_lt hfit]
    exact .inr ⟨Nat.dvd_sub_mod _, by omega, by omega⟩
  · have hwrap : Word.add value (alignment - 1) = value + (alignment - 1) - Word.size := by
      rw [Word.add, Nat.mod_eq_sub_mod (by omega), Nat.mod_eq_of_lt (by omega)]
    rw [alignUp, hwrap, Nat.mod_eq_of_lt (a := value + (alignment - 1) - Word.size) (by omega)]
    exact .inl ⟨Nat.sub_self _, by omega⟩

theorem alignUp_zero (hpos : 0 < alignment) (ha : alignment ≤ Word.size) :
    alignUp 0 alignment = 0 := by
  rw [alignUp, Word.add_of_lt (by omega), Nat.zero_add, Nat.mod_eq_of_lt (by omega), Nat.sub_self]

/-- The payload is aligned and right behind the header, or behind room for a free block; when
there is no such address left, it is 0. -/
theorem placement_cases {start : ℕ} (hpos : 0 < alignment) (ha : alignment ≤ Word.size)
    (h16 : defaultAlignment ∣ alignment) (hs : defaultAlignment ∣ start)
    (htop : start + 48 ≤ Word.size) :
    placement start alignment = 0 ∨
      alignment ∣ placement start alignment ∧
        (placement start alignment = start + 16 ∨ start + 48 ≤ placement start alignment) := by
  have hplain := alignUp_cases (start + 16) hpos ha (by omega)
  have hadd : Word.add start headerBytes = start + 16 :=
    Word.add_of_lt (by simp [headerBytes]; omega)
  have hadd' : Word.add start minBlock = start + 32 := Word.add_of_lt (by simp [minBlock]; omega)
  simp only [placement, hadd, hadd']
  split_ifs with hgap
  · rcases Nat.lt_or_eq_of_le htop with hlt | htop
    · rw [Word.add_of_lt (show start + 32 + headerBytes < Word.size from hlt)]
      rcases alignUp_cases (start + 48) hpos ha hlt with ⟨hzero, -⟩ | ⟨hdvd, hge, -⟩
      · exact .inl hzero
      · exact .inr ⟨hdvd, .inr hge⟩
    · -- the block behind the gap would start at the very top of memory
      have hwrap : Word.add (start + 32) headerBytes = 0 := by
        rw [Word.add, show start + 32 + headerBytes = Word.size from htop, Nat.mod_self]
      rw [hwrap]
      exact .inl (alignUp_zero hpos ha)
  · rcases hplain with ⟨hzero, -⟩ | ⟨hdvd, hge, -⟩
    · exact .inl hzero
    · refine .inr ⟨hdvd, ?_⟩
      have hle : headerBytes ≤ alignUp (start + 16) alignment := by simp [headerBytes]; omega
      have hstart : start ≤ alignUp (start + 16) alignment - headerBytes := by
        simp [headerBytes]; omega
      have h16p := h16.trans hdvd
      rw [Word.sub_of_le hle, Word.sub_of_le hstart] at hgap
      simp only [headerBytes, minBlock, defaultAlignment] at *
      omega

/-- A block in which the payload fits. -/
structure Fits (start stop alignment payload payloadBytes : ℕ) : Prop where
  aligned : alignment ∣ payload
  gap : payload = start + 16 ∨ start + 48 ≤ payload
  room : payload + payloadBytes ≤ stop

/-- **What the test of the loop means**: the two wrapped comparisons accept exactly a payload
inside the block. -/
theorem fits_of_accepted {start stop : ℕ} (hpos : 0 < alignment) (ha : alignment ≤ Word.size)
    (h16 : defaultAlignment ∣ alignment) (hs : defaultAlignment ∣ start)
    (he : defaultAlignment ∣ stop) (hsize : start + 32 ≤ stop) (htop : stop + 16 ≤ Word.size)
    (hstart : Word.sub (placement start alignment) headerBytes < stop)
    (hroom : payloadBytes ≤ Word.sub stop (placement start alignment)) :
    Fits start stop alignment (placement start alignment) payloadBytes := by
  rcases placement_cases hpos ha h16 hs (by omega) with hzero | ⟨hdvd, hgap⟩
  · -- a wrapped placement puts the header in the last 16 bytes of memory
    rw [hzero, Word.sub_of_lt (by simp [headerBytes])] at hstart
    simp only [headerBytes] at hstart
    omega
  · have h16p := h16.trans hdvd
    rw [Word.sub_of_le (by simp [headerBytes]; omega)] at hstart
    have hle : placement start alignment ≤ stop := by
      simp only [headerBytes, defaultAlignment] at *
      omega
    rw [Word.sub_of_le hle] at hroom
    exact ⟨hdvd, hgap, by omega⟩

/-! ## Cutting a block -/

/-- The space between two addresses as a free block, if there is any. -/
def freeBetween (lo hi : ℕ) : List Block := if lo < hi then [⟨lo, hi - lo, none⟩] else []

/-- The pieces a free block is cut into for an allocation: a gap, the block and a tail. -/
def cutBlocks (start stop blockEnd : ℕ) (a : Allocation) : List Block :=
  freeBetween start (a.pointer - 16) ++
    ⟨a.pointer - 16, blockEnd - (a.pointer - 16), some a⟩ :: freeBetween blockEnd stop

theorem freeBetween_tiles (h : lo ≤ hi) : Tiles lo (freeBetween lo hi) hi := by
  rw [freeBetween]
  split_ifs
  · simp [Piece.stop]
    omega
  · simp
    omega

theorem freeBetween_granular (h : lo = hi ∨ lo + 32 ≤ hi) (hlo : 16 ∣ lo) (hhi : 16 ∣ hi) :
    Granular (freeBetween lo hi) := by
  rw [freeBetween]
  split_ifs
  · simp only [granular_cons, minBlock, defaultAlignment]
    exact ⟨by omega, granular_nil⟩
  · exact granular_nil

theorem freeBetween_label : ∀ b ∈ freeBetween lo hi, b.label = none := by
  rw [freeBetween]
  split_ifs <;> simp

theorem freeBetween_freeSize : ((freeBetween lo hi).map freeSize).sum = hi - lo := by
  rw [freeBetween]
  split_ifs
  · simp [freeSize]
  · simp
    omega

theorem makeFree_same {m : Mem} {address : ℕ} (hx : x < address ∨ address + 24 ≤ x) :
    makeFree m address size next x = m x := by
  rw [makeFree, Mem.store_of_not_mem (by omega), Mem.store_of_not_mem (by omega),
    Mem.store_of_not_mem (by omega)]

theorem makeFree_represents {m : Mem} {address : ℕ} (hsize : size < Word.size)
    (hnext : next < Word.size) :
    Represents (makeFree m address size next) next [⟨address, size, none⟩] := by
  refine ⟨?_, ?_, fun _ => ?_, trivial⟩
  · rw [blockSize, makeFree, Mem.load_store_of_disjoint (by simp),
      Mem.load_store_of_disjoint (by simp), Mem.load_store_self hsize]
  · rw [blockTag, makeFree, Mem.load_store_of_disjoint (by simp), Mem.load_store_self (by decide)]
    rfl
  · exact Mem.load_store_self hnext

variable {h : State} {m : Mem} {link : Option ℕ} {pre post : List Block} {c : Block}
  {blockStart blockEnd lo hi : ℕ}

theorem splitTail_eq (hstop : endOf m c.start = c.stop) :
    splitTail m c.start blockEnd =
      if blockEnd < c.stop then
        (makeFree m blockEnd (c.stop - blockEnd) (blockNext m c.start), blockEnd)
      else (m, blockNext m c.start) := by
  rw [splitTail, hstop]
  split_ifs with hlt
  · rw [Word.sub_of_le hlt.le]
  · rfl

theorem splitTail_same (hstop : endOf m c.start = c.stop)
    (hsmall : blockEnd = c.stop ∨ blockEnd + 32 ≤ c.stop) (hx : x < blockEnd ∨ c.stop ≤ x) :
    (splitTail m c.start blockEnd).1 x = m x := by
  rw [splitTail_eq hstop]
  split_ifs with hlt
  · exact makeFree_same (by omega)
  · rfl

theorem splitTail_represents (hpost : Tiles c.stop post hi) (hg : Granular post)
    (hr : Represents m 0 post) (hstop : endOf m c.start = c.stop)
    (hnext : blockNext m c.start = firstFree 0 post) (hhi : hi < Word.size)
    (hsmall : blockEnd = c.stop ∨ blockEnd + 32 ≤ c.stop) :
    Represents (splitTail m c.start blockEnd).1 0 (freeBetween blockEnd c.stop ++ post) ∧
      (splitTail m c.start blockEnd).2 =
        firstFree 0 (freeBetween blockEnd c.stop ++ post) := by
  have hle := hpost.le
  have hkeep := hr.frame hpost hg fun x hx _ => splitTail_same (m := m) hstop hsmall (.inr hx)
  rw [freeBetween]
  rw [splitTail_eq hstop] at hkeep ⊢
  split_ifs at hkeep ⊢ with hlt
  · refine ⟨represents_append.mpr ⟨?_, hkeep⟩, ?_⟩
    · rw [hnext]
      exact makeFree_represents (by omega) (firstFree_lt hpost hhi.le (by decide))
    · rw [firstFree_append]
      rfl
  · exact ⟨hkeep, hnext⟩

/-- Leaving the gap in front of the cut a free block, or unlinking the block. -/
theorem splitGap_represents (blockStart : ℕ) (hl : LinkAt pre link) (hpre : Tiles lo pre c.start)
    (hg : Granular pre) (hr : Represents h.mem c.start pre)
    (hhead : h.freeHead = firstFree c.start pre) (htag : blockTag h.mem c.start = freeTag)
    (hgap : blockStart = c.start ∨ c.start + 32 ≤ blockStart) (hbs : blockStart < Word.size)
    (hnext : next < Word.size) :
    Relinked h (splitGap h link c.start blockStart next) next
        (pre ++ freeBetween c.start blockStart) blockStart := by
  unfold splitGap freeBetween
  split_ifs with hlt
  · have hsame : ∀ x, x < c.start ∨ c.start + 24 ≤ x →
        ((h.mem.store c.start (Word.sub blockStart c.start)).store (c.start + 16) next) x
          = h.mem x := by
      intro x hx
      rw [Mem.store_of_not_mem (by omega), Mem.store_of_not_mem (by omega)]
    -- the gap keeps its header, with a new size and link
    refine ⟨represents_append.mpr ⟨?_, ?_, ?_, fun _ => ?_, trivial⟩, ?_, ?_, fun x hx => ?_,
      rfl, rfl, rfl⟩
    · exact hr.frame hpre hg fun x _ hx => hsame x (.inl hx)
    · rw [blockSize, Mem.load_store_of_disjoint (by simp), Word.sub_of_le hlt.le,
        Mem.load_store_self (by omega)]
    · rw [blockTag, Mem.load_store_of_disjoint (by simp), Mem.load_store_of_disjoint (by simp)]
      exact htag
    · exact Mem.load_store_self hnext
    · rw [firstFree_append]
      exact hhead
    · refine keeps_append.mpr ⟨Keeps.of_eq hpre fun x _ hx => hsame x (.inl hx), ?_⟩
      intro b hb hused
      rw [List.mem_singleton.mp hb] at hused
      exact absurd rfl hused
    · exact hsame x (by omega)
  · have heq : blockStart = c.start := by omega
    rw [List.append_nil, heq]
    exact relink_spec hl hpre hg hr hhead hnext

/-- Where the cut ends: behind the payload, or where the block ended if the tail would be too
small. -/
theorem carveEnd_cases {stop payload : ℕ} (hroom : payload + payloadBytes ≤ stop)
    (hstop : stop < Word.size) :
    carveEnd stop payload payloadBytes = stop ∨
      carveEnd stop payload payloadBytes = payload + payloadBytes ∧
        payload + payloadBytes + 32 ≤ stop := by
  rw [carveEnd, Word.add_of_lt (by omega), Word.sub_of_le hroom, minBlock]
  split_ifs <;> omega

section Cut

variable {a : Allocation} {start stop : ℕ}

theorem cutBlocks_tiles (hs : start ≤ a.pointer - 16) (he : a.pointer - 16 < blockEnd)
    (hstop : blockEnd ≤ stop) : Tiles start (cutBlocks start stop blockEnd a) stop := by
  have hblock : (⟨a.pointer - 16, blockEnd - (a.pointer - 16), some a⟩ : Block).stop =
      blockEnd := by
    simp only [Piece.stop]
    omega
  refine tiles_append_cons.mpr ⟨freeBetween_tiles hs, ?_, ?_⟩
  · exact Nat.sub_pos_of_lt he
  · rw [hblock]
    exact freeBetween_tiles hstop

theorem cutBlocks_separated : Separated (cutBlocks start stop blockEnd a) := by
  rw [cutBlocks, freeBetween, freeBetween]
  split_ifs <;> simp [Separated]

theorem cutBlocks_freeSize (a : Allocation) (hs : start ≤ a.pointer - 16)
    (he : a.pointer - 16 ≤ blockEnd) (hstop : blockEnd ≤ stop) :
    ((cutBlocks start stop blockEnd a).map freeSize).sum + (blockEnd - (a.pointer - 16)) =
      stop - start := by
  simp only [cutBlocks, List.map_append, List.map_cons, List.sum_append, List.sum_cons,
    freeBetween_freeSize, freeSize]
  simp only [reduceCtorEq, if_false]
  omega

theorem filterMap_freeBetween : (freeBetween lo hi).filterMap Piece.label = [] :=
  List.filterMap_eq_nil_iff.mpr freeBetween_label

theorem cutBlocks_owners : (cutBlocks start stop blockEnd a).filterMap Piece.label = [a] := by
  simp [cutBlocks, filterMap_freeBetween]

end Cut

/-- The header of the allocated block changes nothing else. -/
theorem markUsed_same (hx : x < blockStart ∨ blockStart + 16 ≤ x) :
    (markUsed h blockStart size).mem x = h.mem x := by
  simp only [markUsed]
  rw [Mem.store_of_not_mem (by omega), Mem.store_of_not_mem (by omega)]

theorem markUsed_represents (hsize : size < Word.size)
    (hr : Represents (markUsed h blockStart size).mem 0 post) :
    Represents (markUsed h blockStart size).mem 0 (⟨blockStart, size, some a⟩ :: post) := by
  refine ⟨?_, Mem.load_store_self (by decide), by simp, hr⟩
  rw [blockSize, markUsed, Mem.load_store_of_disjoint (by simp), Mem.load_store_self hsize]

/-- The memory a cut leaves: the links and headers of everything around it are right. -/
theorem carve_represents (hc : Around h pre c post) (hfree : c.label = none)
    (hlink : LinkAt pre link) (hgap : a.pointer = c.start + 16 ∨ c.start + 48 ≤ a.pointer)
    (hend : a.pointer + 16 ≤ carveEnd c.stop a.pointer payloadBytes)
    (hsmall : carveEnd c.stop a.pointer payloadBytes = c.stop ∨
      carveEnd c.stop a.pointer payloadBytes + 32 ≤ c.stop) (h16 : 16 ∣ a.pointer)
    (h16e : 16 ∣ carveEnd c.stop a.pointer payloadBytes) (hhi : h.heapEnd < Word.size) :
    let h' := carve h link c.start a.pointer payloadBytes
    let bs := pre ++ cutBlocks c.start c.stop (carveEnd c.stop a.pointer payloadBytes) a ++ post
    Represents h'.mem 0 bs ∧ h'.freeHead = firstFree 0 bs ∧ Keeps h.mem h'.mem (pre ++ post) ∧
      h'.heapBegin = h.heapBegin ∧ h'.heapEnd = h.heapEnd ∧
      h'.freeBytes = Word.sub h.freeBytes
        (carveEnd c.stop a.pointer payloadBytes - (a.pointer - 16)) := by
  have hhigh := hc.high
  have hmin := hc.minSize
  have hsub : Word.sub a.pointer headerBytes = a.pointer - 16 :=
    Word.sub_of_le (by simp only [headerBytes]; omega)
  simp only [carve, hc.endOf_eq, hsub]
  generalize carveEnd c.stop a.pointer payloadBytes = blockEnd at *
  rw [Word.sub_of_le (a := blockEnd) (by omega)]
  -- the tail
  obtain ⟨hrtail, hnext⟩ := splitTail_represents hc.tilesPost hc.granularPost hc.representsPost
    hc.endOf_eq (hc.next hfree) hhi hsmall
  have htail : ∀ x, x < blockEnd ∨ c.stop ≤ x →
      (splitTail h.mem c.start blockEnd).1 x = h.mem x :=
    fun x => splitTail_same hc.endOf_eq hsmall
  generalize splitTail h.mem c.start blockEnd = tail at *
  obtain ⟨tailMem, next⟩ := tail
  simp only at hrtail hnext htail ⊢
  have hpost : Tiles blockEnd (freeBetween blockEnd c.stop ++ post) h.heapEnd :=
    tiles_append.mpr ⟨c.stop, freeBetween_tiles (by omega), hc.tilesPost⟩
  have hgpost : Granular (freeBetween blockEnd c.stop ++ post) :=
    granular_append.mpr ⟨freeBetween_granular hsmall h16e hc.alignedStop, hc.granularPost⟩
  -- the gap
  have hrpre := hc.representsPre
  have hhead := hc.headPre
  rw [firstFree_cons_free hfree] at hrpre hhead
  have htag : blockTag tailMem c.start = freeTag := by
    rw [blockTag, Mem.load_congr fun i hi => htail _ (by omega)]
    exact hc.tag.trans (if_pos hfree)
  have hrel := splitGap_represents (h := { h with mem := tailMem }) (a.pointer - 16) hlink
    hc.tilesPre hc.granularPre
    (hrpre.frame hc.tilesPre hc.granularPre fun x _ hx => htail x (by omega)) hhead htag
    (by omega) (by omega) (hnext ▸ firstFree_lt hpost hhi.le (by decide))
  have hpre : Tiles h.heapBegin (pre ++ freeBetween c.start (a.pointer - 16)) (a.pointer - 16) :=
    tiles_append.mpr ⟨c.start, hc.tilesPre, freeBetween_tiles (by omega)⟩
  have hgpre : Granular (pre ++ freeBetween c.start (a.pointer - 16)) :=
    granular_append.mpr ⟨hc.granularPre,
      freeBetween_granular (by omega) hc.alignedStart (by omega)⟩
  generalize splitGap { h with mem := tailMem } link c.start (a.pointer - 16) next = split at *
  -- the block between them
  have hsame : ∀ x, x < a.pointer - 16 ∨ a.pointer ≤ x →
      (markUsed split (a.pointer - 16) (blockEnd - (a.pointer - 16))).mem x = split.mem x :=
    fun x hx => markUsed_same (by omega)
  have hsplit : pre ++ cutBlocks c.start c.stop blockEnd a ++ post =
      (pre ++ freeBetween c.start (a.pointer - 16)) ++
        ⟨a.pointer - 16, blockEnd - (a.pointer - 16), some a⟩ ::
          (freeBetween blockEnd c.stop ++ post) := by
    simp only [cutBlocks, List.append_assoc, List.cons_append]
  rw [hsplit]
  refine ⟨represents_append.mpr ⟨?_, markUsed_represents (by omega) ?_⟩, ?_, ?_, hrel.heapBegin,
    hrel.heapEnd, ?_⟩
  · rw [firstFree_cons_used (by simp), ← hnext]
    exact hrel.represents.frame hpre hgpre fun x _ hx => hsame x (.inl hx)
  · refine hrtail.frame hpost hgpost fun x hx _ => ?_
    rw [hsame x (by omega), hrel.behind x (by omega)]
  · rw [firstFree_append, firstFree_cons_used (by simp), ← hnext]
    exact hrel.head
  · refine keeps_append.mpr ⟨?_, Keeps.of_eq hc.tilesPost fun x hx _ => ?_⟩
    · have htailKeeps : Keeps h.mem tailMem pre :=
        Keeps.of_eq hc.tilesPre fun x _ hx => htail x (by omega)
      exact (htailKeeps.trans (keeps_append.mp hrel.keeps).1).trans
        (Keeps.of_eq hc.tilesPre fun x _ hx => hsame x (by omega))
    · rw [hsame x (by omega), hrel.behind x (by omega)]
      exact htail x (.inr hx)
  · rw [markUsed, hrel.freeBytes]

/-- **Cutting a block keeps the layout**: the free block `c` is replaced by the pieces of the
cut, and no payload changes. -/
theorem carve_layout (hl : Layout h (pre ++ c :: post)) (hfree : c.label = none)
    (hlink : LinkAt pre link) (hfits : Fits c.start c.stop alignment a.pointer payloadBytes)
    (h16 : 16 ∣ alignment) (hbytes : 16 ∣ payloadBytes) (hpos : 0 < payloadBytes)
    (hasked : a.bytes ≤ payloadBytes) (halign : max a.alignment defaultAlignment ∣ a.pointer) :
    Layout (carve h link c.start a.pointer payloadBytes)
        (pre ++ cutBlocks c.start c.stop (carveEnd c.stop a.pointer payloadBytes) a ++ post) ∧
      Keeps h.mem (carve h link c.start a.pointer payloadBytes).mem (pre ++ post) ∧
      (carve h link c.start a.pointer payloadBytes).heapBegin = h.heapBegin ∧
      (carve h link c.start a.pointer payloadBytes).heapEnd = h.heapEnd := by
  have hc := hl.around
  have hhigh := hl.high
  have hchigh := hc.high
  have h16p : 16 ∣ a.pointer := h16.trans hfits.aligned
  have hgap := hfits.gap
  have hend := carveEnd_cases hfits.room (by omega)
  have hroom := hfits.room
  have h16e : 16 ∣ carveEnd c.stop a.pointer payloadBytes := by
    have := hc.alignedStop
    omega
  obtain ⟨hrep, hhead, hkeeps, hbegin, hheapEnd, hbytes'⟩ := carve_represents (a := a) hc hfree
    hlink hgap (by omega) (by omega) h16p h16e hl.heapEnd_lt
  generalize carveEnd c.stop a.pointer payloadBytes = blockEnd at *
  generalize carve h link c.start a.pointer payloadBytes = h' at *
  have hgapLe : c.start ≤ a.pointer - 16 := by omega
  have hblockLe : a.pointer - 16 ≤ blockEnd := by omega
  have htailLe : blockEnd ≤ c.stop := by omega
  have htiles : Tiles c.start (cutBlocks c.start c.stop blockEnd a) c.stop :=
    cutBlocks_tiles hgapLe (by omega) htailLe
  have hgranular : Granular (cutBlocks c.start c.stop blockEnd a) := by
    rw [cutBlocks, granular_append, granular_cons]
    refine ⟨freeBetween_granular (by omega) hc.alignedStart (by omega), ⟨?_, ?_⟩,
      freeBetween_granular (by omega) h16e hc.alignedStop⟩
    · simp only [minBlock]
      omega
    · simp only [defaultAlignment]
      omega
  -- around a free block all is allocated, so the pieces touch no other free block
  obtain ⟨hspre, hspost, hlast, hfirst⟩ := (separated_free_iff hfree).mp hl.separated
  refine ⟨⟨?_, ?_, hspre.surround cutBlocks_separated hspost hlast hfirst, hrep, hhead, ?_, ?_,
    hbegin ▸ hl.aligned, ?_, ?_⟩, hkeeps, hbegin, hheapEnd⟩
  · rw [hbegin, hheapEnd]
    exact tiles_append.mpr ⟨c.stop, tiles_append.mpr ⟨c.start, hc.tilesPre, htiles⟩, hc.tilesPost⟩
  · exact granular_append.mpr ⟨granular_append.mpr ⟨hc.granularPre, hgranular⟩, hc.granularPost⟩
  · have hsum := cutBlocks_freeSize a hgapLe hblockLe htailLe
    have hold := hl.freeBytes
    simp only [List.map_append, List.map_cons, List.sum_append, List.sum_cons, freeSize,
      if_pos hfree] at hold hsum ⊢
    have hsize : c.stop - c.start = c.size := by simp [Piece.stop]
    rw [hbytes', Word.sub_of_le (by omega)]
    omega
  · intro b hb x hx
    rcases List.mem_append.mp hb with hb | hb
    · rcases List.mem_append.mp hb with hb | hb
      · exact hl.owned b (List.mem_append_left _ hb) x hx
      · rcases List.mem_append.mp hb with hb | hb
        · exact absurd hx (by simp [freeBetween_label b hb])
        · rcases List.mem_cons.mp hb with rfl | hb
          · obtain rfl : a = x := Option.some.inj hx
            exact ⟨by simp only [headerBytes]; omega, by simp only [headerBytes]; omega, halign⟩
          · exact absurd hx (by simp [freeBetween_label b hb])
    · exact hl.owned b (List.mem_append_right _ (List.mem_cons_of_mem c hb)) x hx
  · rw [hbegin, hheapEnd]
    exact hl.low
  · rw [hheapEnd]
    exact hl.high

/-! ## First fit -/

/-- The test of the loop of `allocate` for a free block. -/
def Accepts (c : Block) (alignment payloadBytes : ℕ) : Prop :=
  Word.sub (placement c.start alignment) headerBytes < c.stop ∧
    payloadBytes ≤ Word.sub c.stop (placement c.start alignment)

/-- What the loop of `allocate` finds in `rest`: nothing, and then no free block is accepted, or
a block to cut. -/
theorem allocateFrom_spec {bs : List Block} (alignment payloadBytes : ℕ) (hl : Layout h bs)
    {pre rest : List Block} {link : Option ℕ} {fuel : ℕ} (hbs : bs = pre ++ rest)
    (hlink : LinkAt pre link) (hfuel : rest.length ≤ fuel) :
    (allocateFrom h payloadBytes alignment fuel link = (0, h) ∧
        ∀ c ∈ rest, c.label = none → ¬ Accepts c alignment payloadBytes) ∨
      ∃ pre' c post link', bs = pre' ++ c :: post ∧ c.label = none ∧ LinkAt pre' link' ∧
        Accepts c alignment payloadBytes ∧
        allocateFrom h payloadBytes alignment fuel link =
          (placement c.start alignment,
            carve h link' c.start (placement c.start alignment) payloadBytes) := by
  induction rest generalizing pre link fuel with
  | nil =>
    have hfollow : h.follow link = 0 := by
      rw [List.append_nil] at hbs
      subst hbs
      exact follow_eq hlink hl.represents hl.head
    refine .inl ⟨?_, by simp⟩
    cases fuel with
    | zero => rfl
    | succ fuel => simp only [allocateFrom, hfollow, if_true]
  | cons c rest ih =>
    subst hbs
    have hsnoc : pre ++ c :: rest = (pre ++ [c]) ++ rest := by simp
    have hc := hl.around
    -- the loop stops at free blocks only
    by_cases hfree : c.label = none
    · obtain ⟨fuel, rfl⟩ : ∃ n, fuel = n + 1 := ⟨fuel - 1, by simp at hfuel; omega⟩
      have hfollow : h.follow link = c.start := by
        have := follow_eq hlink hc.representsPre hc.headPre
        rwa [firstFree_cons_free hfree] at this
      have hpos : c.start ≠ 0 := by have := hc.low; omega
      by_cases hacc : Accepts c alignment payloadBytes
      · refine .inr ⟨pre, c, rest, link, rfl, hfree, hlink, hacc, ?_⟩
        obtain ⟨hstart, hroom⟩ := hacc
        simp only [allocateFrom, hfollow, if_neg hpos, hc.endOf_eq]
        rw [if_neg (by omega)]
      · have hskip : allocateFrom h payloadBytes alignment (fuel + 1) link =
            allocateFrom h payloadBytes alignment fuel (some c.start) := by
          simp only [Accepts, not_and_or, not_lt, not_le] at hacc
          simp only [allocateFrom, hfollow, if_neg hpos, hc.endOf_eq, ge_iff_le]
          rw [if_pos hacc]
        rw [hskip]
        rcases ih hsnoc (LinkAt.snoc_free hfree) (by simpa using hfuel) with ⟨hnull, hnone⟩ | hfound
        · exact .inl ⟨hnull, List.forall_mem_cons.mpr ⟨fun _ => hacc, hnone⟩⟩
        · exact .inr hfound
    · have hfuel' : rest.length ≤ fuel := (Nat.le_succ _).trans hfuel
      rcases ih hsnoc (hlink.snoc_used hfree) hfuel' with ⟨hnull, hnone⟩ | hfound
      · exact .inl ⟨hnull, List.forall_mem_cons.mpr ⟨fun h => absurd h hfree, hnone⟩⟩
      · exact .inr hfound

/-- The alignment that the loop works with is a power of two from 16 on. -/
theorem max_power (hpow : alignment.isPowerOfTwo) :
    ∃ k, 4 ≤ k ∧ max alignment defaultAlignment = 2 ^ k := by
  obtain ⟨k, rfl⟩ := hpow
  rcases Nat.le_total k 4 with hk | hk
  · exact ⟨4, Nat.le_refl 4, max_eq_right (Nat.pow_le_pow_right (by decide) hk)⟩
  · exact ⟨k, hk, max_eq_left (Nat.pow_le_pow_right (n := 2) (by decide) hk)⟩

theorem sixteen_dvd_max (hpow : alignment.isPowerOfTwo) : 16 ∣ max alignment defaultAlignment := by
  obtain ⟨k, hk, heq⟩ := max_power hpow
  rw [heq]
  exact Nat.pow_dvd_pow 2 hk

/-- **`allocate`**: it leaves the heap as it is, or cuts the block of a new allocation out of a
free one and changes no payload. -/
theorem allocate_spec {bs : List Block} (hl : Layout h bs) (bytes alignment : ℕ) :
    allocate h bytes alignment = (0, h) ∨
      ∃ pre c post cut a, bs = pre ++ c :: post ∧ c.label = none ∧
        a.bytes = bytes ∧ a.alignment = alignment ∧ a.pointer ≠ 0 ∧
        (allocate h bytes alignment).1 = a.pointer ∧
        Layout (allocate h bytes alignment).2 (pre ++ cut ++ post) ∧
        cut.filterMap Piece.label = [a] ∧
        Keeps h.mem (allocate h bytes alignment).2.mem (pre ++ post) ∧
        (allocate h bytes alignment).2.heapBegin = h.heapBegin ∧
        (allocate h bytes alignment).2.heapEnd = h.heapEnd := by
  have hle := hl.tiles.le
  have hhigh := hl.high
  have hmax : (if alignment < defaultAlignment then defaultAlignment else alignment) =
      max alignment defaultAlignment := by
    split_ifs <;> omega
  simp only [allocate, hmax, Word.sub_of_le hle]
  by_cases hbad : bytes = 0 ∨ alignment = 0 ∨ alignment &&& (alignment - 1) ≠ 0
  · exact .inl (if_pos hbad)
  by_cases hbig : bytes > h.heapEnd - h.heapBegin ∨
      max alignment defaultAlignment > h.heapEnd - h.heapBegin
  · exact .inl (by rw [if_neg hbad, if_pos hbig])
  rw [if_neg hbad, if_neg hbig]
  have h16 : 16 ∣ max alignment defaultAlignment :=
    sixteen_dvd_max (Nat.ne_zero_and_sub_one_eq_zero_iff_isPowerOfTwo.mp (by omega))
  have hpos : 0 < max alignment defaultAlignment := Nat.lt_of_lt_of_le (by decide)
    (Nat.le_max_right _ _)
  have hrounded : 16 ∣ alignUp bytes defaultAlignment ∧ bytes ≤ alignUp bytes defaultAlignment := by
    have hend := hl.heapEnd_lt
    have hcases := alignUp_cases bytes (show 0 < defaultAlignment by decide) (by decide)
      (by omega)
    obtain ⟨hdvd, hge, -⟩ := hcases.resolve_left fun hwrap => by
      simp only [defaultAlignment] at *
      omega
    exact ⟨hdvd, hge⟩
  generalize haligned : max alignment defaultAlignment = aligned at *
  generalize alignUp bytes defaultAlignment = payloadBytes at *
  -- the checks have passed: the first free block with room is cut
  rcases allocateFrom_spec aligned payloadBytes hl
    (List.nil_append bs).symm linkAt_nil hl.tiles.length_le with ⟨hnull, -⟩ | hfound
  · exact .inl hnull
  · obtain ⟨pre, c, post, link, rfl, hfree, hlink, ⟨hstart, hroom⟩, heq⟩ := hfound
    have hc := hl.around
    have hfits := fits_of_accepted hpos (by omega) h16 hc.alignedStart hc.alignedStop hc.minSize
      hc.high hstart hroom
    have hcarve := carve_layout (a := ⟨placement c.start aligned, bytes, alignment⟩) hl hfree hlink
      hfits h16 hrounded.1 (by omega) hrounded.2 (haligned ▸ hfits.aligned)
    obtain ⟨hlayout, hkeeps, hbegin, hend⟩ := hcarve
    have hgap := hfits.gap
    rw [heq]
    exact .inr ⟨pre, c, post, _, ⟨placement c.start aligned, bytes, alignment⟩, rfl, hfree, rfl,
      rfl, by simp only; omega, rfl, hlayout, cutBlocks_owners, hkeeps, hbegin, hend⟩

end ShirleysOS.Heap
