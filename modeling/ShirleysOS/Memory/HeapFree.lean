import Mathlib.Algebra.Order.BigOperators.Group.List
import Mathlib.Algebra.Order.Group.Nat
import ShirleysOS.Memory.HeapLayout

/-!
# Release keeps the layout

`free` accepts a pointer only when the walk over the blocks meets its header and finds it
allocated, whatever the payloads hold. The block then joins the free list at its place, merged
with the free blocks it touches.
-/

namespace ShirleysOS.Heap

open Lib

variable {h : State} {m : Mem} {b : Block} {pre post rest : List Block} {next lo hi : ℕ}

/-! ## The walk -/

theorem tagOf_eq_usedTag : tagOf b = usedTag ↔ b.label ≠ none := by
  rw [tagOf]
  split_ifs with hb
  · simp [hb, freeTag, usedTag]
  · simp [hb]

theorem allocatedFrom_iff {header fuel : ℕ} (ht : Tiles lo rest h.heapEnd) (hg : Granular rest)
    (hr : Represents h.mem next rest) (hhi : h.heapEnd < Word.size) (hfuel : rest.length ≤ fuel) :
    allocatedFrom h header fuel lo = true ↔
      ∃ b ∈ rest, b.start = header ∧ b.label ≠ none := by
  induction rest generalizing lo fuel with
  | nil =>
    obtain rfl : lo = h.heapEnd := ht
    cases fuel <;> simp [allocatedFrom]
  | cons b rest ih =>
    obtain ⟨rfl, hpos, hrest⟩ := ht
    obtain ⟨⟨hmin, -⟩, hgrest⟩ := granular_cons.mp hg
    obtain ⟨hsize, htag, -, hrrest⟩ := hr
    obtain ⟨fuel, rfl⟩ : ∃ n, fuel = n + 1 := ⟨fuel - 1, by simp at hfuel; omega⟩
    have hle := hrest.le
    have hstop : Word.add b.start b.size = b.stop := Word.add_of_lt (by
      simp only [Piece.stop] at hle
      omega)
    have hlt : b.start < h.heapEnd := by
      simp only [Piece.stop] at hle
      omega
    -- every later block starts behind this one
    have hlater : ∀ c ∈ rest, b.start < c.start := fun c hc => by
      have := (hrest.bounds hc).1
      simp only [Piece.stop] at this
      omega
    simp only [allocatedFrom, if_pos hlt, List.exists_mem_cons_iff, hsize, htag]
    split_ifs with heq hstopped
    · rw [beq_iff_eq, tagOf_eq_usedTag]
      constructor
      · exact fun hused => .inl ⟨heq, hused⟩
      · rintro (⟨-, hused⟩ | ⟨c, hc, hstart, -⟩)
        · exact hused
        · have := hlater c hc
          omega
    · simp only [false_iff]
      rintro (⟨hstart, -⟩ | ⟨c, hc, hstart, -⟩)
      · exact heq hstart
      · have := hlater c hc
        omega
    · rw [hstop, ih hrest hgrest hrrest (by simpa using hfuel)]
      exact ⟨.inr, fun hor => hor.resolve_left fun hb => heq hb.1⟩

/-- **The headers `free` accepts** are those of the allocated blocks. -/
theorem allocatedBlock_iff {bs : List Block} {header : ℕ} (hl : Layout h bs) :
    allocatedBlock h header = true ↔ ∃ b ∈ bs, b.start = header ∧ b.label ≠ none :=
  allocatedFrom_iff hl.tiles hl.granular hl.represents hl.heapEnd_lt
    hl.tiles.length_le

/-- The loop of `free` ends at the links on both sides of `header`. -/
theorem neighbours_spec {done todo : List Block} {link : Option ℕ} {header fuel : ℕ}
    (hlink : LinkAt done link) (ht : Tiles lo todo header) (hlo : 0 < lo)
    (hr : Represents m next todo) (hnext : next = 0 ∨ header ≤ next) (hfuel : todo.length ≤ fuel) :
    ∃ link', LinkAt (done ++ todo) link' ∧
      neighbours m header fuel (link.getD 0) (firstFree next todo) = (link'.getD 0, next) := by
  induction todo generalizing done link lo fuel with
  | nil =>
    refine ⟨link, by simpa using hlink, ?_⟩
    cases fuel with
    | zero => rfl
    | succ fuel =>
      rw [firstFree_nil, neighbours, if_neg (by omega)]
  | cons b todo ih =>
    obtain ⟨rfl, hpos, htodo⟩ := ht
    obtain ⟨-, -, hblock, hrtodo⟩ := hr
    have hle := htodo.le
    have hstop : b.start < b.stop := Nat.lt_add_of_pos_right hpos
    have hsnoc : done ++ b :: todo = (done ++ [b]) ++ todo := by simp
    rw [hsnoc]
    by_cases hfree : b.label = none
    · obtain ⟨fuel, rfl⟩ : ∃ n, fuel = n + 1 := ⟨fuel - 1, by simp at hfuel; omega⟩
      have hsnoced : LinkAt (done ++ [b]) (some b.start) := LinkAt.snoc_free hfree
      obtain ⟨link', hlink', heq⟩ := ih hsnoced htodo
        (by omega) hrtodo (by simpa using hfuel)
      refine ⟨link', hlink', ?_⟩
      rw [firstFree_cons_free hfree, neighbours, if_pos ⟨by omega, by omega⟩, hblock hfree]
      exact heq
    · rw [firstFree_cons_used hfree]
      exact ih (hlink.snoc_used hfree) htodo (by omega) hrtodo ((Nat.le_succ _).trans hfuel)

/-! ## Merging -/

/-- A tiling starts with a free block exactly when the first free block is where it starts. -/
theorem firstFree_eq_start (ht : Tiles lo post hi) (hlo : 0 < lo)
    (heq : firstFree 0 post = lo) : ∃ c post', post = c :: post' ∧ c.label = none := by
  cases post with
  | nil =>
    rw [firstFree_nil] at heq
    omega
  | cons c post =>
    refine ⟨c, post, rfl, ?_⟩
    by_contra hused
    obtain ⟨rfl, hpos, hpost⟩ := ht
    rw [firstFree_cons_used hused] at heq
    rcases firstFree_cases 0 post with ⟨hzero, -⟩ | ⟨d, hd, -, hstart⟩
    · omega
    · have := (hpost.bounds hd).1
      simp only [Piece.stop] at this
      omega

/-- The blocks behind a merge: nothing merged, or the first one is gone. -/
def MergedNext (size : ℕ) (post : List Block) (size' : ℕ) (post' : List Block) : Prop :=
  (post' = post ∧ size' = size ∧ ∀ c ∈ post.head?, c.label ≠ none) ∨
    ∃ c, post = c :: post' ∧ c.label = none ∧ size' = size + c.size

theorem mergeNext_spec (ht : Tiles b.stop post hi) (hg : Granular post) (hpos : 0 < b.start)
    (hmin : b.start + 32 ≤ b.stop) (hhi : hi < Word.size) (hr : Represents m 0 post)
    (hsize : blockSize m b.start = b.size) (htag : blockTag m b.start = freeTag)
    (hnext : blockNext m b.start = firstFree 0 post) :
    ∃ size' post', MergedNext b.size post size' post' ∧
      Represents (mergeNext m b.start (firstFree 0 post)) 0 (⟨b.start, size', none⟩ :: post') ∧
      ∀ x, x < b.start ∨ b.start + 24 ≤ x →
        mergeNext m b.start (firstFree 0 post) x = m x := by
  have hle := ht.le
  have hend : endOf m b.start = b.stop := by
    rw [endOf, hsize]
    exact Word.add_of_lt (by simp only [Piece.stop] at *; omega)
  -- the block behind is merged if it is free and begins where this one ends
  by_cases htouch : firstFree 0 post ≠ 0 ∧ endOf m b.start = firstFree 0 post
  · obtain ⟨c, post', rfl, hfree⟩ := firstFree_eq_start ht (by omega) (hend ▸ htouch.2.symm)
    obtain ⟨hcstart, -, hpost'⟩ := ht
    obtain ⟨-, hgpost'⟩ := granular_cons.mp hg
    obtain ⟨hcsize, -, hcnext, hrpost'⟩ := hr
    rw [mergeNext, if_pos htouch, firstFree_cons_free hfree, hsize, hcsize, hcnext hfree]
    have hle' := hpost'.le
    have hsum : b.size + c.size < Word.size := by
      simp only [Piece.stop] at *
      omega
    rw [Word.add_of_lt hsum]
    have hsame : ∀ x, x < b.start ∨ b.start + 24 ≤ x →
        ((m.store b.start (b.size + c.size)).store (b.start + 16) (firstFree 0 post')) x = m x := by
      intro x hx
      rw [Mem.store_of_not_mem (by omega), Mem.store_of_not_mem (by omega)]
    refine ⟨b.size + c.size, post', .inr ⟨c, rfl, hfree, rfl⟩, ⟨?_, ?_, fun _ => ?_, ?_⟩, hsame⟩
    · rw [blockSize, Mem.load_store_of_disjoint (by simp), Mem.load_store_self hsum]
    · rw [blockTag, Mem.load_store_of_disjoint (by simp), Mem.load_store_of_disjoint (by simp)]
      exact htag
    · exact Mem.load_store_self (firstFree_lt hpost' hhi.le (by decide))
    · have hcstop : c.start ≤ c.stop := Nat.le_add_right _ _
      exact hrpost'.frame hpost' hgpost' fun x hx _ => hsame x (by omega)
  · rw [mergeNext, if_neg htouch]
    refine ⟨b.size, post, .inl ⟨rfl, rfl, ?_⟩, ⟨hsize, htag, fun _ => hnext, hr⟩, fun _ _ => rfl⟩
    intro c hc hfree
    obtain ⟨post', rfl⟩ : ∃ post', post = c :: post' := List.head?_eq_some_iff.mp hc
    rw [firstFree_cons_free hfree, hend] at htouch
    have := ht.1
    omega

/-- The blocks before a merge: nothing merged, or the last one is absorbed. -/
def MergedPrevious (pre : List Block) (f : Block) (pre' : List Block) (f' : Block) : Prop :=
  (pre' = pre ∧ f' = f ∧ ∀ c ∈ pre.getLast?, c.label ≠ none) ∨
    ∃ q, pre = pre' ++ [q] ∧ q.label = none ∧ f' = ⟨q.start, q.size + f.size, none⟩

theorem mergePrevious_spec {f : Block} {link : Option ℕ} (hlink : LinkAt pre link)
    (ht : Tiles lo pre f.start) (hg : Granular pre) (hlo : 0 < lo ∨ pre = [])
    (hpost : Tiles f.stop post hi) (hhi : hi < Word.size) (hf : f.label = none)
    (hgf : Granular (f :: post))
    (hr : Represents h.mem next pre) (hhead : h.freeHead = firstFree next pre)
    (hrf : Represents h.mem 0 (f :: post)) :
    ∃ pre' f', MergedPrevious pre f pre' f' ∧
      Represents (mergePrevious h f.start (link.getD 0)).mem 0 (pre' ++ f' :: post) ∧
      (mergePrevious h f.start (link.getD 0)).freeHead = firstFree 0 (pre' ++ f' :: post) ∧
      Keeps h.mem (mergePrevious h f.start (link.getD 0)).mem (pre ++ post) := by
  have hle := hpost.le
  have hgpost := (granular_cons.mp hgf).2
  have hfpos : 0 < f.size := lt_of_lt_of_le (by decide) (granular_cons.mp hgf).1.1
  have hstop : f.start < f.stop := Nat.lt_add_of_pos_right hfpos
  cases link with
  | none =>
    refine ⟨pre, f, .inl ⟨rfl, rfl, fun c hc => hlink c (List.mem_of_getLast? hc)⟩, ?_, ?_, ?_⟩
    · exact represents_append.mpr ⟨represents_of_used hlink hr, hrf⟩
    · rw [firstFree_append, firstFree_of_used hlink, firstFree_cons_free hf]
      rfl
    · exact fun _ _ _ _ _ _ => rfl
  | some address =>
    obtain ⟨before, q, after, rfl, rfl, hfree, hused⟩ := hlink
    obtain ⟨hbefore, hqpos, hafter⟩ := tiles_append_cons.mp ht
    have hq := hbefore.le
    have hqend : endOf h.mem q.start = q.stop := by
      have hqle := hafter.le
      rw [endOf, (represents_append.mp hr).2.1]
      exact Word.add_of_lt (by simp only [Piece.stop] at *; omega)
    have hq0 : q.start ≠ 0 := by
      have := hlo.resolve_right (by simp)
      omega
    rw [Option.getD_some]
    -- the free block before is a neighbour, or something allocated is between
    by_cases htouch : q.stop = f.start
    · obtain rfl : after = [] := by
        cases after with
        | nil => rfl
        | cons d after =>
          have := hafter.2.2.le
          have := hafter.1
          have := hafter.2.1
          simp only [Piece.stop] at *
          omega
      obtain ⟨hgbefore, hgq, -⟩ : Granular before ∧ _ ∧ Granular [] := by
        simpa only [granular_append, granular_cons] using hg
      obtain ⟨hrbefore, hqsize, hqtag, -⟩ := represents_append.mp hr
      obtain ⟨hfsize, -, hfnext, hrpost⟩ := hrf
      have hsum : q.size + f.size < Word.size := by
        simp only [Piece.stop] at *
        omega
      have hroom : q.start + 24 ≤ q.stop := by
        have := hgq.1
        simp only [minBlock, Piece.stop] at *
        omega
      have heq : mergePrevious h f.start q.start =
          { h with
            mem := (h.mem.store q.start (q.size + f.size)).store (q.start + 16)
              (firstFree 0 post) } := by
        rw [mergePrevious, if_neg hq0, hqend, if_pos htouch, hqsize, hfsize, hfnext hf,
          Word.add_of_lt hsum]
      rw [heq]
      have hsame : ∀ x, x < q.start ∨ q.start + 24 ≤ x →
          ((h.mem.store q.start (q.size + f.size)).store (q.start + 16) (firstFree 0 post)) x
            = h.mem x := by
        intro x hx
        rw [Mem.store_of_not_mem (by omega), Mem.store_of_not_mem (by omega)]
      refine ⟨before, ⟨q.start, q.size + f.size, none⟩, .inr ⟨q, rfl, hfree, rfl⟩,
        represents_append.mpr ⟨?_, ?_, ?_, fun _ => ?_, ?_⟩, ?_, ?_⟩
      · rw [firstFree_cons_free hfree] at hrbefore
        exact hrbefore.frame hbefore hgbefore fun x _ hx => hsame x (.inl hx)
      · rw [blockSize, Mem.load_store_of_disjoint (by simp), Mem.load_store_self hsum]
      · rw [blockTag, Mem.load_store_of_disjoint (by simp), Mem.load_store_of_disjoint (by simp)]
        exact hqtag.trans (if_pos hfree)
      · exact Mem.load_store_self (firstFree_lt hpost hhi.le (by decide))
      · exact hrpost.frame hpost hgpost fun x hx _ => hsame x (by omega)
      · rw [hhead, firstFree_append, firstFree_append, firstFree_cons_free hfree]
        rfl
      · refine keeps_append.mpr ⟨keeps_append.mpr ⟨?_, ?_⟩, ?_⟩
        · exact Keeps.of_eq hbefore fun x _ hx => hsame x (.inl hx)
        · intro c hc hlabel
          exact absurd (List.mem_singleton.mp hc ▸ hfree) hlabel
        · exact Keeps.of_eq hpost fun x hx _ => hsame x (by omega)
    · have hlink : LinkAt (before ++ q :: after) (some q.start) :=
        ⟨before, q, after, rfl, rfl, hfree, hused⟩
      have hrel := relink_spec hlink ht hg hr hhead (show f.start < Word.size by omega)
      have heq : mergePrevious h f.start q.start = h.relink f.start (some q.start) := by
        rw [mergePrevious, if_neg hq0, hqend, if_neg htouch]
        rfl
      rw [heq]
      have hne : after ≠ [] := by
        rintro rfl
        exact htouch hafter
      have htiles : Tiles f.start (f :: post) hi := ⟨rfl, hfpos, hpost⟩
      refine ⟨before ++ q :: after, f, .inl ⟨rfl, rfl, fun c hc => ?_⟩,
        represents_append.mpr ⟨?_, ?_⟩, ?_, keeps_append.mpr ⟨hrel.keeps, ?_⟩⟩
      · rw [List.getLast?_append, List.getLast?_cons, List.getLast?_eq_some_getLast hne] at hc
        obtain rfl : after.getLast hne = c := by simpa using hc
        exact hused _ (List.getLast_mem hne)
      · rw [firstFree_cons_free hf]
        exact hrel.represents
      · exact hrf.frame htiles hgf fun x hx _ => hrel.behind x hx
      · rw [firstFree_append, firstFree_cons_free hf]
        exact hrel.head
      · exact Keeps.of_eq hpost fun x hx _ => hrel.behind x (by omega)

theorem mergePrevious_globals (h : State) (block previous : ℕ) :
    (mergePrevious h block previous).heapBegin = h.heapBegin ∧
      (mergePrevious h block previous).heapEnd = h.heapEnd ∧
      (mergePrevious h block previous).freeBytes = h.freeBytes := by
  rw [mergePrevious]
  split_ifs <;> exact ⟨rfl, rfl, rfl⟩

/-! ## Release -/

/-- What a merge with the next block keeps of the blocks behind. -/
structure Behind (b : Block) (post : List Block) (size : ℕ) (post' : List Block) (hi : ℕ) :
    Prop where
  tiles : Tiles (b.start + size) post' hi
  granular : Granular (⟨b.start, size, none⟩ :: post')
  separated : Separated post'
  head : ∀ c ∈ post'.head?, c.label ≠ none
  freeSize : size + (post'.map freeSize).sum = b.size + (post.map freeSize).sum
  owners : post'.filterMap Piece.label = post.filterMap Piece.label
  subset : post' ⊆ post
  used : ∀ c ∈ post, c.label ≠ none → c ∈ post'

theorem MergedNext.behind {size : ℕ} {post' : List Block} (hm : MergedNext b.size post size post')
    (ht : Tiles b.stop post hi) (hg : Granular (b :: post)) (hs : Separated post) :
    Behind b post size post' hi := by
  obtain ⟨⟨hmin, h16⟩, hgpost⟩ := granular_cons.mp hg
  rcases hm with ⟨rfl, rfl, hhead⟩ | ⟨c, rfl, hfree, rfl⟩
  · exact ⟨ht, granular_cons.mpr ⟨⟨hmin, h16⟩, hgpost⟩, hs, hhead, rfl, rfl, fun _ => id,
      fun _ hc _ => hc⟩
  · obtain ⟨⟨hcmin, hc16⟩, hgpost'⟩ := granular_cons.mp hgpost
    obtain ⟨-, hspost', -, hhead⟩ : Separated [] ∧ _ := (separated_free_iff hfree).mp hs
    obtain ⟨hstart, -, hpost'⟩ := ht
    refine ⟨?_, granular_cons.mpr ⟨⟨?_, Nat.dvd_add h16 hc16⟩, hgpost'⟩, hspost', hhead, ?_, ?_,
      List.subset_cons_self c post', fun d hd hused => ?_⟩
    · have heq : b.start + (b.size + c.size) = c.stop := by
        rw [Piece.stop, hstart, Piece.stop, Nat.add_assoc]
      rwa [heq]
    · exact hmin.trans (Nat.le_add_right _ _)
    · rw [List.map_cons, List.sum_cons, Heap.freeSize, if_pos hfree, Nat.add_assoc]
    · rw [List.filterMap_cons_none hfree]
    · rcases List.mem_cons.mp hd with rfl | hd
      · exact absurd hfree hused
      · exact hd

/-- What a merge with the previous block keeps of the blocks before. -/
structure Before (pre : List Block) (f : Block) (pre' : List Block) (f' : Block) (lo : ℕ) :
    Prop where
  tiles : Tiles lo pre' f'.start
  stop : f'.stop = f.stop
  granular : Granular (pre' ++ [f'])
  free : f'.label = none
  separated : Separated pre'
  last : ∀ c ∈ pre'.getLast?, c.label ≠ none
  freeSize : (pre'.map freeSize).sum + f'.size = (pre.map freeSize).sum + f.size
  owners : pre'.filterMap Piece.label = pre.filterMap Piece.label
  subset : pre' ⊆ pre
  used : ∀ c ∈ pre, c.label ≠ none → c ∈ pre'

theorem MergedPrevious.before {f f' : Block} {pre' : List Block}
    (hm : MergedPrevious pre f pre' f') (ht : Tiles lo pre f.start) (hg : Granular (pre ++ [f]))
    (hf : f.label = none) (hs : Separated pre) : Before pre f pre' f' lo := by
  rcases hm with ⟨rfl, rfl, hlast⟩ | ⟨q, rfl, hfree, rfl⟩
  · exact ⟨ht, rfl, hg, hf, hs, hlast, rfl, rfl, fun _ => id, fun _ hc _ => hc⟩
  · obtain ⟨hspre', -, hlast, -⟩ := (separated_free_iff hfree).mp hs
    obtain ⟨htpre', -, hstop⟩ := tiles_append_cons.mp ht
    simp only [granular_append, granular_cons] at hg
    obtain ⟨⟨hgpre', ⟨hqmin, hq16⟩, -⟩, ⟨-, hf16⟩, -⟩ := hg
    refine ⟨htpre', ?_, ?_, rfl, hspre', hlast, ?_, ?_, List.subset_append_left pre' [q],
      fun d hd hused => ?_⟩
    · rw [Piece.stop, ← Nat.add_assoc, Piece.stop, ← (tiles_nil.mp hstop), Piece.stop]
    · refine granular_append.mpr ⟨hgpre', granular_cons.mpr ⟨⟨?_, Nat.dvd_add hq16 hf16⟩,
        granular_nil⟩⟩
      exact hqmin.trans (Nat.le_add_right _ _)
    · simp only [List.map_append, List.sum_append, List.map_cons, List.map_nil, List.sum_cons,
        List.sum_nil, Heap.freeSize, if_pos hfree]
      omega
    · simp [hfree]
    · rcases List.mem_append.mp hd with hd | hd
      · exact hd
      · exact absurd (List.mem_singleton.mp hd ▸ hfree) hused

theorem sum_freeSize_le (bs : List Block) : (bs.map freeSize).sum ≤ (bs.map Piece.size).sum := by
  refine List.sum_le_sum fun c _ => ?_
  rw [freeSize]
  split_ifs
  · exact le_rfl
  · exact Nat.zero_le _

/-- The block that a release leaves, with its neighbours merged in, fits the tiling. -/
theorem coalesced_layout {h' : State} {pre' post' : List Block} {f : Block} {size : ℕ}
    (hl : Layout h (pre ++ b :: post)) (hused : b.label ≠ none)
    (hnext : MergedNext b.size post size post')
    (hprev : MergedPrevious pre ⟨b.start, size, none⟩ pre' f)
    (hrep : Represents h'.mem 0 (pre' ++ f :: post'))
    (hhead : h'.freeHead = firstFree 0 (pre' ++ f :: post'))
    (hbegin : h'.heapBegin = h.heapBegin) (hend : h'.heapEnd = h.heapEnd)
    (hbytes : h'.freeBytes = Word.add h.freeBytes b.size) :
    Layout h' (pre' ++ f :: post') ∧
      (pre' ++ f :: post').filterMap Piece.label = (pre ++ post).filterMap Piece.label ∧
      ∀ c ∈ pre ++ post, c.label ≠ none → c ∈ pre' ++ f :: post' := by
  have hb := hl.around
  have hgranular := hl.granular
  obtain ⟨hspre, hspost, -⟩ := List.isChain_append.mp hl.separated
  -- first with the block behind, then with the one before
  have hA := hnext.behind hb.tilesPost (granular_append.mp hgranular).2 hspost.tail
  have hB := hprev.before hb.tilesPre (granular_append.mpr ⟨hb.granularPre,
    granular_cons.mpr ⟨(granular_cons.mp hA.granular).1, granular_nil⟩⟩) rfl hspre
  have htiles : Tiles h.heapBegin (pre' ++ f :: post') h.heapEnd := by
    refine tiles_append_cons.mpr ⟨hB.tiles, ?_, hB.stop ▸ hA.tiles⟩
    have := (granular_append.mp hB.granular).2 f (by simp)
    exact lt_of_lt_of_le (by decide) this.1
  refine ⟨⟨?_, ?_, ?_, hrep, hhead, ?_, ?_, hbegin ▸ hl.aligned, ?_, ?_⟩, ?_, fun c hc hlabel => ?_⟩
  · rwa [hbegin, hend]
  · rw [granular_append, granular_cons]
    exact ⟨(granular_append.mp hB.granular).1, (granular_append.mp hB.granular).2 f (by simp),
      (granular_cons.mp hA.granular).2⟩
  · exact (separated_free_iff hB.free).mpr ⟨hB.separated, hA.separated, hB.last, hA.head⟩
  · have hold := hl.freeBytes
    have hsumA := hA.freeSize
    have hsumB := hB.freeSize
    have htotal := hl.tiles.sum_sizes
    have hhigh := hl.heapEnd_lt
    have hpre := sum_freeSize_le pre
    have hpost := sum_freeSize_le post
    simp only [List.map_append, List.map_cons, List.sum_append, List.sum_cons] at hold htotal ⊢
    rw [Heap.freeSize, if_neg hused] at hold
    rw [hbytes, Heap.freeSize, if_pos hB.free, Word.add_of_lt (by omega)]
    simp only at hsumB
    omega
  · intro c hc a ha
    rcases List.mem_append.mp hc with hc | hc
    · exact hl.owned c (List.mem_append_left _ (hB.subset hc)) a ha
    · rcases List.mem_cons.mp hc with rfl | hc
      · exact absurd ha (by simp [hB.free])
      · exact hl.owned c (List.mem_append_right _ (List.mem_cons_of_mem b (hA.subset hc))) a ha
  · rw [hbegin, hend]
    exact hl.low
  · rw [hend]
    exact hl.high
  · rw [List.filterMap_append, List.filterMap_cons_none hB.free, List.filterMap_append, hA.owners,
      hB.owners]
  · rcases List.mem_append.mp hc with hc | hc
    · exact List.mem_append_left _ (hB.used c hc hlabel)
    · exact List.mem_append_right _ (List.mem_cons_of_mem f (hA.used c hc hlabel))

theorem release_spec (hl : Layout h (pre ++ b :: post)) (hused : b.label ≠ none) :
    ∃ bs', Layout (release h b.start) bs' ∧
      bs'.filterMap Piece.label = (pre ++ post).filterMap Piece.label ∧
      (∀ c ∈ pre ++ post, c.label ≠ none → c ∈ bs') ∧
      Keeps h.mem (release h b.start).mem (pre ++ post) ∧
      (release h b.start).heapBegin = h.heapBegin ∧ (release h b.start).heapEnd = h.heapEnd := by
  have hb := hl.around
  have hlow := hb.low
  have hhigh := hl.heapEnd_lt
  have hmin := hb.minSize
  have hpost := hb.tilesPost
  have hpos : 0 < h.heapBegin := by
    have hlt := hb.tilesPre.le
    have := hb.tilesPost.le
    have := hl.low
    simp only [defaultAlignment] at *
    omega
  set next := firstFree 0 post with hnext
  -- the tag goes in the header, the link behind it
  set tagged := h.mem.store (b.start + 8) freeTag with htagged
  set linked := tagged.store (b.start + 16) next with hlinked
  have hsame : ∀ x, x < b.start ∨ b.stop ≤ x → linked x = h.mem x ∧ tagged x = h.mem x := by
    intro x hx
    have htag : tagged x = h.mem x := Mem.store_of_not_mem (by omega)
    exact ⟨(Mem.store_of_not_mem (by omega)).trans htag, htag⟩
  have hrpre := hb.representsPre
  have hhead := hb.headPre
  rw [firstFree_cons_used hused] at hrpre hhead
  have hsize : blockSize tagged b.start = b.size :=
    (Mem.load_store_of_disjoint (by omega)).trans hb.size
  have hbehind : next = 0 ∨ b.start ≤ next := by
    rcases firstFree_cases 0 post with ⟨hzero, -⟩ | ⟨c, hc, -, hstart⟩
    · exact .inl hzero
    · have := (hpost.bounds hc).1
      exact .inr (by omega)
  have hrtagged : Represents tagged next pre :=
    hrpre.frame hb.tilesPre hb.granularPre fun x _ hx => (hsame x (.inl hx)).2
  have hshort : b.start - h.heapBegin ≤ h.heapEnd - h.heapBegin := by
    have := hpost.le
    omega
  -- where the block is linked in
  obtain ⟨link, hlink, hsides⟩ := neighbours_spec linkAt_nil hb.tilesPre hpos hrtagged hbehind
    (hb.tilesPre.length_le.trans hshort)
  rw [List.nil_append] at hlink
  rw [Option.getD_none, ← hhead] at hsides
  have hrelease : release h b.start = mergePrevious
      { h with
        mem := mergeNext linked b.start next
        freeBytes := Word.add h.freeBytes b.size } b.start (link.getD 0) := by
    rw [release, ← htagged, hsides, hsize]
    rfl
  -- merging on both sides
  have hrpost : Represents linked 0 post :=
    hb.representsPost.frame hpost hb.granularPost fun x hx _ => (hsame x (.inr hx)).1
  have hlsize : blockSize linked b.start = b.size :=
    (Mem.load_store_of_disjoint (by omega)).trans hsize
  have hltag : blockTag linked b.start = freeTag := by
    rw [blockTag, hlinked, Mem.load_store_of_disjoint (by omega)]
    exact Mem.load_store_self (by decide)
  have hlnext : blockNext linked b.start = firstFree 0 post :=
    Mem.load_store_self (firstFree_lt hpost (by omega) (by decide))
  obtain ⟨size, post', hmerged, hrf, hmsame⟩ := mergeNext_spec hpost hb.granularPost (by omega)
    hmin (by omega) hrpost hlsize hltag hlnext
  rw [← hnext] at hrf hmsame
  have hA := hmerged.behind hpost (granular_append.mp hl.granular).2
    (List.isChain_append.mp hl.separated).2.1.tail
  generalize mergeNext linked b.start next = merged at *
  have hbelow : ∀ x, x < b.start → merged x = h.mem x := fun x hx =>
    (hmsame x (.inl hx)).trans (hsame x (.inl hx)).1
  have habove : ∀ x, b.stop ≤ x → merged x = h.mem x := fun x hx =>
    (hmsame x (.inr (by omega))).trans (hsame x (.inr hx)).1
  obtain ⟨pre', f, hprev, hrep, hfhead, hkeeps⟩ := mergePrevious_spec
    (h := { h with mem := merged, freeBytes := Word.add h.freeBytes b.size })
    (f := ⟨b.start, size, none⟩) hlink hb.tilesPre hb.granularPre (.inl hpos) hA.tiles (by omega)
    rfl hA.granular (hrpre.frame hb.tilesPre hb.granularPre fun x _ hx => hbelow x hx) hhead hrf
  rw [hrelease]
  obtain ⟨hbegin, hend, hbytes⟩ := mergePrevious_globals
    { h with mem := merged, freeBytes := Word.add h.freeBytes b.size } b.start (link.getD 0)
  obtain ⟨hlayout, howners, hkept⟩ :=
    coalesced_layout hl hused hmerged hprev hrep hfhead hbegin hend hbytes
  refine ⟨_, hlayout, howners, hkept, ?_, hbegin, hend⟩
  obtain ⟨hkpre, hkpost⟩ := keeps_append.mp hkeeps
  have hmpre : Keeps h.mem merged pre := Keeps.of_eq hb.tilesPre fun x _ hx => hbelow x hx
  have hmpost : Keeps h.mem merged post := Keeps.of_eq hpost fun x hx _ => habove x hx
  exact keeps_append.mpr ⟨hmpre.trans hkpre,
    hmpost.trans fun c hc hlabel => hkpost c (hA.used c hc hlabel) hlabel⟩

/-- **`free`**: a pointer that no allocated block has is ignored; otherwise its block is freed
and no other payload changes. -/
theorem free_spec {bs : List Block} (hl : Layout h bs) (pointer : ℕ) :
    (free h pointer = h ∧ ∀ b ∈ bs, b.label ≠ none → b.start + headerBytes ≠ pointer) ∨
      ∃ pre b post bs', bs = pre ++ b :: post ∧ b.label ≠ none ∧
        b.start + headerBytes = pointer ∧ Layout (free h pointer) bs' ∧
        bs'.filterMap Piece.label = (pre ++ post).filterMap Piece.label ∧
        (∀ c ∈ pre ++ post, c.label ≠ none → c ∈ bs') ∧
        Keeps h.mem (free h pointer).mem (pre ++ post) ∧
        (free h pointer).heapBegin = h.heapBegin ∧ (free h pointer).heapEnd = h.heapEnd := by
  have hfirst : ∀ b ∈ bs, Word.add h.heapBegin headerBytes = h.heapBegin + 16 := by
    intro b hb
    have hhigh := hl.heapEnd_lt
    have hbounds := hl.tiles.bounds hb
    have hmin := (hl.granular b hb).1
    refine Word.add_of_lt ?_
    simp only [headerBytes, minBlock, Piece.stop] at *
    omega
  by_cases hex : ∃ b ∈ bs, b.label ≠ none ∧ b.start + headerBytes = pointer
  · obtain ⟨b, hmem, hused, rfl⟩ := hex
    obtain ⟨pre, post, rfl⟩ := List.append_of_mem hmem
    have hb := hl.around
    obtain ⟨bs', hlayout, howners, hkept, hkeeps, hbegin, hend⟩ := release_spec hl hused
    have hfree : free h (b.start + headerBytes) = release h b.start := by
      have hpre := hb.tilesPre.le
      have hpost := hb.tilesPost.le
      have hmin := hb.minSize
      have h16 := hb.alignedStart
      have hsub : Word.sub (b.start + headerBytes) headerBytes = b.start := by
        rw [Word.sub_of_le (Nat.le_add_left _ _), Nat.add_sub_cancel]
      have hallocated : allocatedBlock h b.start = true :=
        (allocatedBlock_iff hl).mpr ⟨b, hmem, rfl, hused⟩
      rw [free, hfirst b hmem, hsub, hallocated]
      simp only [headerBytes, defaultAlignment, Bool.true_eq_false, if_false]
      rw [if_neg (by omega), if_neg (by omega)]
    rw [hfree]
    exact .inr ⟨pre, b, post, bs', rfl, hused, rfl, hlayout, howners, hkept, hkeeps, hbegin,
      hend⟩
  · push Not at hex
    refine .inl ⟨?_, hex⟩
    rw [free]
    split_ifs with hnull hrange hallocated
    · rfl
    · rfl
    · rfl
    · -- the walk would have met the header of an allocated block
      rw [Bool.not_eq_false, allocatedBlock_iff hl] at hallocated
      obtain ⟨b, hmem, hstart, hused⟩ := hallocated
      rw [hfirst b hmem] at hrange
      rw [Word.sub_of_le (by simp only [headerBytes]; omega)] at hstart
      refine absurd ?_ (hex b hmem hused)
      simp only [headerBytes] at *
      omega

end ShirleysOS.Heap
