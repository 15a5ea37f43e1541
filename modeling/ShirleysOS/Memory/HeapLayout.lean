import ShirleysOS.Lib.Tiling
import ShirleysOS.Memory.Heap
import Mathlib.Data.List.Chain

/-!
# The layout of the heap

What the memory of a heap means: a tiling of the heap by blocks, each free or owned by an
allocation, with the headers and the links of the free list in memory. The free list is read
off the tiling: a free block links to the first free block behind it.

A heap is taken apart at a block, and what happens before it depends on what is behind it only
through the first free block there; this is the parameter `next` of `firstFree` and
`Represents`.
-/

namespace ShirleysOS.Heap

open Lib

/-- A block; its label is the allocation that owns it, or `none` when it is free. -/
abbrev Block : Type := Piece (Option Allocation)

def tagOf (b : Block) : ℕ := if b.label = none then freeTag else usedTag

/-- The start of the first free block, or `next` if there is none. -/
def firstFree (next : ℕ) : List Block → ℕ
  | [] => next
  | b :: bs => if b.label = none then b.start else firstFree next bs

/-- The memory holds the headers of the blocks and the links of the free ones; `next` is the
first free block behind them. -/
def Represents (m : Mem) (next : ℕ) : List Block → Prop
  | [] => True
  | b :: bs =>
    blockSize m b.start = b.size ∧ blockTag m b.start = tagOf b ∧
      (b.label = none → blockNext m b.start = firstFree next bs) ∧ Represents m next bs

/-- Sizes are multiples of the alignment unit and leave room for a header and a link. -/
def Granular (bs : List Block) : Prop :=
  ∀ b ∈ bs, minBlock ≤ b.size ∧ defaultAlignment ∣ b.size

/-- The payloads of the allocated blocks are the same in both memories. -/
def Keeps (m m' : Mem) (bs : List Block) : Prop :=
  ∀ b ∈ bs, b.label ≠ none → ∀ x, b.start + headerBytes ≤ x → x < b.stop → m' x = m x

/-- The last free block of `bs` holds the link to what follows, or there is none and the head
of the list holds it. -/
def LinkAt (bs : List Block) : Option ℕ → Prop
  | none => ∀ b ∈ bs, b.label ≠ none
  | some address => ∃ before q after,
      bs = before ++ q :: after ∧ q.start = address ∧ q.label = none ∧ ∀ b ∈ after, b.label ≠ none

/-- What the block of an allocation owes its client. -/
def Serves (b : Block) (a : Allocation) : Prop :=
  a.pointer = b.start + headerBytes ∧ a.bytes + headerBytes ≤ b.size ∧
    max a.alignment defaultAlignment ∣ a.pointer

/-- Two neighbours are not both free. -/
def Separated (bs : List Block) : Prop :=
  bs.IsChain fun b c => b.label ≠ none ∨ c.label ≠ none

def freeSize (b : Block) : ℕ := if b.label = none then b.size else 0

/-- **The layout of a heap**: its blocks tile it, their headers and links are in memory, and
the globals agree with them. -/
structure Layout (h : State) (bs : List Block) : Prop where
  tiles : Tiles h.heapBegin bs h.heapEnd
  granular : Granular bs
  separated : Separated bs
  represents : Represents h.mem 0 bs
  head : h.freeHead = firstFree 0 bs
  freeBytes : h.freeBytes = (bs.map freeSize).sum
  owned : ∀ b ∈ bs, ∀ a, b.label = some a → Serves b a
  aligned : defaultAlignment ∣ h.heapBegin
  low : h.heapBegin = h.heapEnd ∨ defaultAlignment ≤ h.heapBegin
  high : h.heapEnd + defaultAlignment ≤ Word.size

variable {m m' m'' : Mem} {next next' lo hi : ℕ} {b : Block} {bs cs : List Block}

theorem Layout.heapEnd_lt {h : State} (hl : Layout h bs) : h.heapEnd < Word.size :=
  Nat.lt_of_lt_of_le (Nat.lt_add_of_pos_right (by decide)) hl.high

/-! ## Blocks in two parts -/

@[simp] theorem firstFree_nil : firstFree next [] = next := rfl

theorem firstFree_cons_free (hb : b.label = none) : firstFree next (b :: bs) = b.start :=
  if_pos hb

theorem firstFree_cons_used (hb : b.label ≠ none) :
    firstFree next (b :: bs) = firstFree next bs := if_neg hb

theorem firstFree_append :
    firstFree next (bs ++ cs) = firstFree (firstFree next cs) bs := by
  induction bs with
  | nil => rfl
  | cons b bs ih => simp only [List.cons_append, firstFree, ih]

theorem firstFree_of_used (h : ∀ b ∈ bs, b.label ≠ none) : firstFree next bs = next := by
  induction bs with
  | nil => rfl
  | cons b bs ih =>
    rw [firstFree_cons_used (h b List.mem_cons_self)]
    exact ih fun c hc => h c (List.mem_cons_of_mem b hc)

/-- The first free block is one of the blocks, or there is none. -/
theorem firstFree_cases (next : ℕ) (bs : List Block) :
    (firstFree next bs = next ∧ ∀ b ∈ bs, b.label ≠ none) ∨
      ∃ b ∈ bs, b.label = none ∧ firstFree next bs = b.start := by
  induction bs with
  | nil => exact .inl ⟨rfl, by simp⟩
  | cons b bs ih =>
    by_cases hb : b.label = none
    · exact .inr ⟨b, List.mem_cons_self, hb, firstFree_cons_free hb⟩
    · rw [firstFree_cons_used hb]
      rcases ih with ⟨heq, hused⟩ | ⟨c, hc, hfree, heq⟩
      · exact .inl ⟨heq, List.forall_mem_cons.mpr ⟨hb, hused⟩⟩
      · exact .inr ⟨c, List.mem_cons_of_mem b hc, hfree, heq⟩

theorem firstFree_lt (ht : Tiles lo bs hi) (hhi : hi ≤ Word.size)
    (hnext : next < Word.size) : firstFree next bs < Word.size := by
  rcases firstFree_cases next bs with ⟨heq, -⟩ | ⟨b, hb, -, heq⟩
  · rwa [heq]
  · have := ht.bounds hb
    have := ht.size_pos hb
    simp only [Piece.stop] at *
    omega

theorem represents_append :
    Represents m next (bs ++ cs) ↔
      Represents m (firstFree next cs) bs ∧ Represents m next cs := by
  induction bs with
  | nil => simp [Represents]
  | cons b bs ih => simp only [List.cons_append, Represents, firstFree_append, ih, and_assoc]

theorem represents_of_used (h : ∀ b ∈ bs, b.label ≠ none) (hr : Represents m next bs) :
    Represents m next' bs := by
  induction bs with
  | nil => trivial
  | cons b bs ih =>
    obtain ⟨hsize, htag, -, hbs⟩ := hr
    obtain ⟨hb, hused⟩ := List.forall_mem_cons.mp h
    exact ⟨hsize, htag, fun hfree => absurd hfree hb, ih hused hbs⟩

theorem Represents.header (hr : Represents m next bs) (hb : b ∈ bs) :
    blockSize m b.start = b.size ∧ blockTag m b.start = tagOf b := by
  obtain ⟨before, after, rfl⟩ := List.append_of_mem hb
  obtain ⟨hsize, htag, -⟩ := (represents_append.mp hr).2
  exact ⟨hsize, htag⟩

@[simp] theorem granular_append : Granular (bs ++ cs) ↔ Granular bs ∧ Granular cs := by
  simp only [Granular, List.forall_mem_append]

@[simp] theorem granular_cons :
    Granular (b :: bs) ↔ (minBlock ≤ b.size ∧ defaultAlignment ∣ b.size) ∧ Granular bs := by
  simp only [Granular, List.forall_mem_cons]

@[simp] theorem granular_nil : Granular [] := by simp [Granular]

/-! ## Frames -/

/-- Only the headers, and the links of free blocks, matter. -/
theorem Represents.congr (hr : Represents m next bs)
    (heq : ∀ b ∈ bs, ∀ i, i < 16 ∨ b.label = none ∧ i < 24 → m' (b.start + i) = m (b.start + i)) :
    Represents m' next bs := by
  induction bs with
  | nil => trivial
  | cons b bs ih =>
    obtain ⟨hsize, htag, hnext, hbs⟩ := hr
    obtain ⟨hb, hrest⟩ := List.forall_mem_cons.mp heq
    refine ⟨?_, ?_, fun hfree => ?_, ih hbs hrest⟩
    · rw [← hsize]
      exact Mem.load_congr fun i hi => hb i (.inl (by omega))
    · rw [← htag]
      refine Mem.load_congr fun i hi => ?_
      rw [Nat.add_assoc]
      exact hb (8 + i) (.inl (by omega))
    · rw [← hnext hfree]
      refine Mem.load_congr fun i hi => ?_
      rw [Nat.add_assoc]
      exact hb (16 + i) (.inr ⟨hfree, by omega⟩)

/-- **Frame**: a change outside the blocks keeps them. -/
theorem Represents.frame (hr : Represents m next bs) (ht : Tiles lo bs hi) (hg : Granular bs)
    (heq : ∀ x, lo ≤ x → x < hi → m' x = m x) : Represents m' next bs := by
  refine hr.congr fun b hb i hi => heq _ ?_ ?_
  · exact (ht.bounds hb).1.trans (Nat.le_add_right _ _)
  · have hstop := (ht.bounds hb).2
    have hsize := (hg b hb).1
    simp only [Piece.stop, minBlock] at *
    omega

theorem Keeps.of_eq (ht : Tiles lo bs hi) (heq : ∀ x, lo ≤ x → x < hi → m' x = m x) :
    Keeps m m' bs := by
  intro b hb _ x hlo hhi
  have := ht.bounds hb
  exact heq x (by omega) (by omega)

theorem Keeps.trans (h : Keeps m m' bs) (h' : Keeps m' m'' bs) : Keeps m m'' bs :=
  fun b hb hused x hlo hhi => (h' b hb hused x hlo hhi).trans (h b hb hused x hlo hhi)

theorem keeps_append : Keeps m m' (bs ++ cs) ↔ Keeps m m' bs ∧ Keeps m m' cs := by
  simp only [Keeps, List.forall_mem_append]

/-! ## Neighbours -/

/-- Around a free block everything is allocated. -/
theorem separated_free_iff (hb : b.label = none) :
    Separated (bs ++ b :: cs) ↔
      Separated bs ∧ Separated cs ∧ (∀ c ∈ bs.getLast?, c.label ≠ none) ∧
        ∀ c ∈ cs.head?, c.label ≠ none := by
  simp only [Separated, List.isChain_append, List.isChain_cons, List.head?_cons, Option.mem_def,
    Option.some.injEq, forall_eq', hb, ne_eq, not_true_eq_false, or_false, false_or]
  tauto

/-- Blocks with nothing free at either end may stand around any others. -/
theorem Separated.surround {mid : List Block} (hbs : Separated bs) (hmid : Separated mid)
    (hcs : Separated cs) (hlast : ∀ c ∈ bs.getLast?, c.label ≠ none)
    (hhead : ∀ c ∈ cs.head?, c.label ≠ none) : Separated (bs ++ mid ++ cs) := by
  simp only [Separated, List.isChain_append] at *
  exact ⟨⟨hbs, hmid, fun x hx _ _ => .inl (hlast x hx)⟩, hcs, fun _ _ y hy => .inr (hhead y hy)⟩

/-! ## Where the link is kept -/

theorem linkAt_nil : LinkAt [] none := by simp [LinkAt]

theorem LinkAt.snoc_free (hb : b.label = none) : LinkAt (bs ++ [b]) (some b.start) :=
  ⟨bs, b, [], rfl, rfl, hb, by simp⟩

theorem LinkAt.snoc_used {link : Option ℕ} (h : LinkAt bs link) (hb : b.label ≠ none) :
    LinkAt (bs ++ [b]) link := by
  cases link with
  | none => exact fun c hc => (List.mem_append.mp hc).elim (h c) (by simp +contextual [hb])
  | some address =>
    obtain ⟨before, q, after, rfl, hq, hfree, hused⟩ := h
    refine ⟨before, q, after ++ [b], by simp, hq, hfree, fun c hc => ?_⟩
    exact (List.mem_append.mp hc).elim (hused c) (by simp +contextual [hb])

variable {h : State} {link : Option ℕ}

/-- The link holds the first free block behind. -/
theorem follow_eq (hl : LinkAt bs link) (hr : Represents h.mem next bs)
    (hhead : h.freeHead = firstFree next bs) : h.follow link = next := by
  cases link with
  | none => rw [State.follow, hhead, firstFree_of_used hl]
  | some address =>
    obtain ⟨before, q, after, rfl, rfl, hfree, hused⟩ := hl
    obtain ⟨-, -, hnext, -⟩ := (represents_append.mp hr).2
    rw [State.follow, hnext hfree, firstFree_of_used hused]

/-- A heap whose link was moved. -/
structure Relinked (h h' : State) (next : ℕ) (bs : List Block) (hi : ℕ) : Prop where
  represents : Represents h'.mem next bs
  head : h'.freeHead = firstFree next bs
  keeps : Keeps h.mem h'.mem bs
  behind : ∀ x, hi ≤ x → h'.mem x = h.mem x
  heapBegin : h'.heapBegin = h.heapBegin
  heapEnd : h'.heapEnd = h.heapEnd
  freeBytes : h'.freeBytes = h.freeBytes

/-- **Moving the link**: the blocks before it now lead to `next'`. -/
theorem relink_spec (hl : LinkAt bs link) (ht : Tiles lo bs hi) (hg : Granular bs)
    (hr : Represents h.mem next bs) (hhead : h.freeHead = firstFree next bs)
    (hnext : next' < Word.size) : Relinked h (h.relink next' link) next' bs hi := by
  cases link with
  | none =>
    exact ⟨represents_of_used hl hr, (firstFree_of_used hl).symm, fun _ _ _ _ _ _ => rfl,
      fun _ _ => rfl, rfl, rfl, rfl⟩
  | some address =>
    obtain ⟨before, q, after, rfl, rfl, hfree, hused⟩ := hl
    obtain ⟨hbefore, hpos, hafter⟩ := tiles_append_cons.mp ht
    obtain ⟨hgbefore, hgq, hgafter⟩ : Granular before ∧ _ ∧ Granular after := by
      simpa only [granular_append, granular_cons] using hg
    obtain ⟨hrbefore, hsize, htag, -, hrafter⟩ := represents_append.mp hr
    have hroom : q.start + 24 ≤ q.stop := by
      have := hgq.1
      simp only [minBlock, Piece.stop] at *
      omega
    -- only the link field of `q` changes
    have hsame : ∀ x, x < q.start + 16 ∨ q.start + 24 ≤ x →
        (h.mem.store (q.start + 16) next') x = h.mem x :=
      fun x hx => Mem.store_of_not_mem (by omega)
    refine ⟨represents_append.mpr ⟨?_, ?_, ?_, fun _ => ?_, ?_⟩, ?_, ?_, fun x hx => ?_, rfl, rfl,
      rfl⟩
    · rw [firstFree_cons_free hfree] at hrbefore ⊢
      exact hrbefore.frame hbefore hgbefore fun x _ hx => hsame x (by omega)
    · rw [← hsize]
      exact Mem.load_store_of_disjoint (by omega)
    · rw [← htag]
      exact Mem.load_store_of_disjoint (by omega)
    · rw [firstFree_of_used hused]
      exact Mem.load_store_self hnext
    · exact (represents_of_used hused hrafter).frame hafter hgafter
        fun x hx _ => hsame x (by omega)
    · rw [State.relink, hhead, firstFree_append, firstFree_append, firstFree_cons_free hfree,
        firstFree_cons_free hfree]
    · refine keeps_append.mpr ⟨Keeps.of_eq hbefore fun x _ hx => hsame x (by omega), ?_⟩
      intro b hb hlabel x hlo hhi
      rcases List.mem_cons.mp hb with rfl | hb
      · exact absurd hfree hlabel
      · have := (hafter.bounds hb).1
        exact hsame x (by omega)
    · have := hafter.le
      exact hsame x (by omega)

/-! ## A heap taken apart at a block -/

/-- What a layout says around one of its blocks. -/
structure Around (h : State) (pre : List Block) (c : Block) (post : List Block) : Prop where
  tilesPre : Tiles h.heapBegin pre c.start
  tilesPost : Tiles c.stop post h.heapEnd
  granularPre : Granular pre
  granularPost : Granular post
  minSize : c.start + 32 ≤ c.stop
  alignedStart : 16 ∣ c.start
  alignedStop : 16 ∣ c.stop
  low : 16 ≤ c.start
  high : c.stop + 16 ≤ Word.size
  representsPre : Represents h.mem (firstFree 0 (c :: post)) pre
  headPre : h.freeHead = firstFree (firstFree 0 (c :: post)) pre
  size : blockSize h.mem c.start = c.size
  tag : blockTag h.mem c.start = tagOf c
  next : c.label = none → blockNext h.mem c.start = firstFree 0 post
  representsPost : Represents h.mem 0 post

theorem Around.endOf_eq {pre post : List Block} {c : Block} (ha : Around h pre c post) :
    endOf h.mem c.start = c.stop := by
  have := ha.high
  rw [endOf, ha.size, Word.add_of_lt (by simp only [Piece.stop] at *; omega), Piece.stop]

theorem Layout.around {pre post : List Block} {c : Block} (hl : Layout h (pre ++ c :: post)) :
    Around h pre c post := by
  obtain ⟨hpre, hpos, hpost⟩ := tiles_append_cons.mp hl.tiles
  obtain ⟨hgpre, hgc, hgpost⟩ : Granular pre ∧ _ ∧ Granular post := by
    simpa only [granular_append, granular_cons] using hl.granular
  obtain ⟨hrpre, hsize, htag, hnext, hrpost⟩ := represents_append.mp hl.represents
  have hstart := hpre.dvd_stop hl.aligned fun b hb => (hgpre b hb).2
  have hle := hpre.le
  have hle' := hpost.le
  have hlow := hl.low
  have hhigh := hl.high
  have hhead := hl.head
  rw [firstFree_append] at hhead
  simp only [minBlock, defaultAlignment] at *
  refine ⟨hpre, hpost, hgpre, hgpost, ?_, hstart, Nat.dvd_add hstart hgc.2, ?_, ?_, hrpre, hhead,
    hsize, htag, hnext, hrpost⟩ <;> simp only [Piece.stop] at * <;> omega

end ShirleysOS.Heap
