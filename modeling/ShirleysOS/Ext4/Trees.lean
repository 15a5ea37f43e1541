import ShirleysOS.Ext4.Image
import ShirleysOS.Ext4.Sound

/-!
# Searching well-formed extent trees

The driver looks through the entries of one node after another. In a well-formed tree a leaf then
gives the run that a block is in or the hole around it, and an index node the child whose interval
the block is in: the other children say nothing about it.
-/

namespace ShirleysOS.Ext4

open Lib Storage

variable {lo hi logical : ℕ}

/-! ## Leaves -/

/-- A stretch of blocks of an interval that has the block `logical`, and on which the map is one
run. -/
structure Placed (f : ℕ → ℕ) (lo hi logical start length target : ℕ) : Prop where
  low : lo ≤ start
  first : start ≤ logical
  last : logical < start + length
  high : start + length ≤ hi
  uniform : Uniform f start length target

/-- The map may be another one that agrees on an interval around the stretch. -/
theorem Placed.widen {f f' : ℕ → ℕ} {lo' hi' start length target : ℕ}
    (h : Placed f lo hi logical start length target) (hlo : lo' ≤ lo) (hhi : hi ≤ hi')
    (heq : ∀ m, lo ≤ m → m < hi → f' m = f m) : Placed f' lo' hi' logical start length target :=
  ⟨Nat.le_trans hlo h.low, h.first, h.last, Nat.le_trans h.high hhi,
    h.uniform.congr fun m hm hm' =>
      heq m (Nat.le_trans h.low hm) (Nat.lt_of_lt_of_le hm' h.high)⟩

/-- What a search of some runs gives for a logical block: a run or a hole, in the interval. -/
def Leaf.Right (rs : List Stretch) (lo hi logical : ℕ) : Leaf → Prop
  | .bad => False
  | .found start length target => Placed (Stretch.lookup rs) lo hi logical start length target
  | .hole limit => Placed (Stretch.lookup rs) lo hi logical logical (limit - logical) 0

theorem placed_hole {rs : List Stretch} {limit : ℕ} (hlo : lo ≤ logical)
    (hlogical : logical < limit) (hlimit : limit ≤ hi)
    (h : ∀ m, logical ≤ m → m < limit → ∀ r ∈ rs, r.covers m = false) :
    Placed (Stretch.lookup rs) lo hi logical logical (limit - logical) 0 :=
  ⟨hlo, Nat.le_refl _, by omega, by omega,
    Stretch.uniform_gap fun m hm hm' => h m hm (by omega)⟩

theorem Leaf.Right.cons {r : Stretch} {rs : List Stretch} (hlo : lo ≤ r.first) {leaf : Leaf}
    (h : leaf.Right rs (r.first + r.count) hi logical) : leaf.Right (r :: rs) lo hi logical := by
  have hone : Stretch.InOrder r.first (r.first + r.count) [r] := ⟨Nat.le_refl _, Nat.le_refl _⟩
  have hskip : ∀ m, r.first + r.count ≤ m → m < hi →
      Stretch.lookup (r :: rs) m = Stretch.lookup rs m :=
    fun m hm _ => Stretch.lookup_append_right hone hm
  have hlo' : lo ≤ r.first + r.count := Nat.le_trans hlo (Nat.le_add_right _ _)
  cases leaf with
  | bad => exact h
  | found start length target => exact Placed.widen h hlo' (Nat.le_refl hi) hskip
  | hole limit => exact Placed.widen h hlo' (Nat.le_refl hi) hskip

/-- **Searching a leaf** whose extents are in order and in the volume. -/
theorem leafScan_nested {node : Bytes} {blocksCount : ℕ} (hhi : logical < hi) (left i : ℕ)
    (hlo : lo ≤ logical)
    (horder : Stretch.InOrder lo hi (((List.range' i left).map (extentAt node)).map Extent.run))
    (hinside : ∀ e ∈ (List.range' i left).map (extentAt node), e.inside blocksCount = true) :
    (leafScan node blocksCount logical hi left i).1.Right
      (((List.range' i left).map (extentAt node)).map Extent.run) lo hi logical := by
  induction left generalizing i lo with
  | zero => exact placed_hole hlo hhi (Nat.le_refl _) fun _ _ _ _ h => nomatch h
  | succ left ih =>
    rw [List.range'_succ, List.map_cons, List.map_cons] at horder ⊢
    rw [List.range'_succ, List.map_cons, List.forall_mem_cons] at hinside
    have hend := horder.2.le
    obtain ⟨hfirst, hrest⟩ := horder
    rw [leafScan]
    split
    · next hbefore =>
      -- the block is before the first of these runs
      have hfirst' : (extentAt node i).first ≤ hi := Nat.le_trans (Nat.le_add_right _ _) hend
      have hlimit : (if (extentAt node i).first < hi then (extentAt node i).first else hi) =
          (extentAt node i).first := by
        split <;> omega
      rw [hlimit]
      have hbehind : Stretch.InOrder (extentAt node i).first hi ((extentAt node i).run ::
          ((List.range' (i + 1) left).map (extentAt node)).map Extent.run) :=
        ⟨Nat.le_refl _, hrest⟩
      exact placed_hole hlo hbefore hfirst' fun m _ hm => hbehind.outside (.inl hm)
    next hbefore =>
    split
    · next hbehind =>
      have hskip : (extentAt node i).run.first + (extentAt node i).run.count ≤ logical := by
        dsimp only [Extent.run]
        omega
      exact (ih (i + 1) hskip hrest hinside.2).cons hfirst
    · next hhere =>
      rw [if_neg (by simp [hinside.1])]
      exact ⟨hfirst, by omega, by omega, hend, Stretch.uniform_run⟩

/-! ## Index nodes -/

variable {D : ℕ → ℕ → ℕ → Prop} {f : ℕ → List Stretch}

/-- The runs under the entries of a node are in order when those under every child are. -/
theorem chain_inOrder (hD : ∀ lo hi child, D lo hi child → Stretch.InOrder lo hi (f child))
    {entries : List (ℕ × ℕ)} (h : Chain D lo hi entries) :
    lo ≤ nextFirst hi entries ∧
      Stretch.InOrder (nextFirst hi entries) hi (entries.flatMap fun e => f e.2) := by
  induction entries generalizing lo with
  | nil => exact ⟨h, Nat.le_refl _⟩
  | cons e rest ih =>
    obtain ⟨hfirst, hchild, hrest⟩ := h
    exact ⟨hfirst, (hD _ _ _ hchild).append (ih hrest).2⟩

/-- The entry at `i` of an index node. -/
def entryAt (node : Bytes) (i : ℕ) : ℕ × ℕ := (indexFirst node i, childOf node i)

/-- What the search of some entries of a node gives: either all of them start behind the block, or
the last one that does not is chosen. The block is in its interval then, and all that the entries
say about that interval is said by the child. -/
def Chose (D : ℕ → ℕ → ℕ → Prop) (f : ℕ → List Stretch) (node : Bytes) (hi logical : ℕ)
    (entries : List (ℕ × ℕ)) (before chosen : Option ℕ) (limit : ℕ) : Prop :=
  logical < limit ∧ limit ≤ hi ∧
    ((chosen = before ∧ limit = nextFirst hi entries) ∨
      ∃ j, chosen = some j ∧ nextFirst hi entries ≤ indexFirst node j ∧
        indexFirst node j ≤ logical ∧ D (indexFirst node j) limit (childOf node j) ∧
        ∀ m, indexFirst node j ≤ m → m < limit →
          Stretch.lookup (entries.flatMap fun e => f e.2) m = Stretch.lookup (f (childOf node j)) m)

/-- **Searching an index node** whose entries have their intervals in order. -/
theorem indexScan_chain (hD : ∀ lo hi child, D lo hi child → Stretch.InOrder lo hi (f child))
    {node : Bytes} (hhi : logical < hi) (left i : ℕ) (before : Option ℕ)
    (h : Chain D lo hi ((List.range' i left).map (entryAt node))) :
    Chose D f node hi logical ((List.range' i left).map (entryAt node)) before
      (indexScan node logical hi left i before).1
      (indexScan node logical hi left i before).2.1 := by
  induction left generalizing i lo before with
  | zero => exact ⟨hhi, Nat.le_refl _, .inl ⟨rfl, rfl⟩⟩
  | succ left ih =>
    have horder := chain_inOrder hD h
    rw [List.range'_succ, List.map_cons] at h horder ⊢
    obtain ⟨hfirst, hchild, hrest⟩ := h
    rw [indexScan]
    split
    · next hbefore =>
      have hle : indexFirst node i ≤ hi := horder.2.le
      have hlimit : (if indexFirst node i < hi then indexFirst node i else hi) =
          indexFirst node i := by
        split <;> omega
      dsimp only
      rw [hlimit]
      exact ⟨hbefore, hle, .inl ⟨rfl, rfl⟩⟩
    next hbefore =>
    have hrestOrder := chain_inOrder hD hrest
    have hthis := hD _ _ _ hchild
    obtain ⟨hlow, hhigh, hcases⟩ := ih (i + 1) (some i) hrest
    refine ⟨hlow, hhigh, .inr ?_⟩
    rcases hcases with ⟨hchosen, hlimit⟩ | ⟨j, hchosen, hafter, hj, hDj, hlookup⟩
    · -- the next entry starts behind the block, so this is the last one
      refine ⟨i, hchosen, Nat.le_refl _, by omega, by rw [hlimit]; exact hchild, fun m _ hm => ?_⟩
      rw [hlimit] at hm
      exact Stretch.lookup_append_left hrestOrder.2 hm
    · have hpast := hthis.le
      refine ⟨j, hchosen, Nat.le_trans hpast hafter, hj, hDj, fun m hm hm' => ?_⟩
      rw [← hlookup m hm hm']
      exact Stretch.lookup_append_right hthis (Nat.le_trans hafter hm)

/-- **The runs of a well-formed tree are in order.** -/
theorem nested_inOrder {g : Image} {depth : ℕ} {node : Bytes} (h : g.Nested depth lo hi node) :
    Stretch.InOrder lo hi (g.runs depth node) := by
  induction depth generalizing lo hi node with
  | zero => exact h.1
  | succ depth ih =>
    have horder := chain_inOrder (f := fun child => g.runs depth (g.block child))
      (fun _ _ _ hchild => ih hchild.2) h
    have hstart : Stretch.InOrder lo (nextFirst hi (indexEntries node)) [] := horder.1
    exact hstart.append horder.2

end ShirleysOS.Ext4
