import ShirleysOS.Shrfs.Mounting
import ShirleysOS.Text.Strings

/-!
# The paths of entries

`path_of` goes up from an entry to the root and puts the names together in the opposite order;
`lookup` goes down from the root, and finds each name by a search through all the entries. On an
image whose entries form a tree, the two are inverse. Source: `kernel/fs/shrfs.cpp`.

Over a device that does not fail, `lookup` follows the components of the path one after another,
as `stepAt` says, and everything about paths is proved about `stepAt`.
-/

namespace ShirleysOS.Shrfs

open Lib Storage Vfs

/-- `max_depth`. -/
abbrev maxDepth : ℕ := 16

/-- The first loop of `path_of`, with room for `left` more entries: the indices from below the root
to the entry that it started at. -/
def chainLoop (fs : Fs) : ℕ → Node → List ℕ → Io Error (Option (List ℕ))
  | 0, current, chain => .pure (if current.index = 0 then some chain else none)
  | left + 1, current, chain =>
    if current.index = 0 then .pure (some chain)
    else do
      match ← readEntry fs current.parent with
      | none => .pure none
      | some parent => chainLoop fs left parent (current.index :: chain)

/-- The second loop of `path_of`, with the path so far. -/
def namesLoop (fs : Fs) (capacity : ℕ) : List ℕ → List UInt8 → Io Error (Option (List UInt8))
  | [], path => .pure (some path)
  | index :: rest, path => do
    match ← readEntry fs index with
    | none => .pure none
    | some step =>
      match Text.append capacity path step.name with
      | none => .pure none
      | some path =>
        if rest.isEmpty then .pure (some path)
        else
          match Text.append capacity path [slash] with
          | none => .pure none
          | some path => namesLoop fs capacity rest path

/-- `path_of`, with a buffer of `capacity` bytes. -/
def pathOf (fs : Fs) (node : Node) (capacity : ℕ) : Io Error (Option (List UInt8)) :=
  match Text.copy capacity [slash] with
  | none => .pure none
  | some path =>
    if node.index = 0 then .pure (some path)
    else do
      match ← chainLoop fs maxDepth node [] with
      | none => .pure none
      | some chain => namesLoop fs capacity chain path

variable {d : Device} {fs : Fs} {node : Node}

/-! ## Programs over a device that does not fail -/

/-- The program only reads, and gives `a` when no access fails. -/
def Yields (d : Device) {α : Type} (p : Io Error α) (a : α) : Prop :=
  p.Always d.exact anyRead (· = a)

theorem Yields.bind {α β : Type} {p : Io Error α} {f : α → Io Error β} {a : α} {b : β}
    (h : Yields d p a) (h' : Yields d (f a) b) : Yields d (p >>= f) b := by
  refine Io.always_bind.mpr (Io.Always.mono h fun a' ha' => ?_)
  rw [ha']
  exact h'

theorem Yields.run {α : Type} {p : Io Error α} {a : α} (h : Yields d p a)
    (hworks : ∀ n, d.faults n = none) : (runDevice p d).1 = a :=
  (runDevice_of_exact hworks h).1

theorem readEntry_yields (h : Accepted fs d) (index : ℕ) :
    Yields d (readEntry fs index) (entryAt fs d.content index) := readEntry_exact h index

/-! ## Going down -/

/-- What a component of a path leads to: itself, the parent, or the first child with the name. -/
def stepAt (entry : ℕ → Option Node) (entries : ℕ) (current : Node) (component : List UInt8) :
    Option Node :=
  if maxName + 1 < component.length + 1 then none
  else if component = dot then some current
  else if component = dotDot then entry current.parent
  else if !current.directory then none
  else ((List.range' 1 (entries - 1)).filterMap entry).find? fun candidate =>
    candidate.parent = current.index ∧ candidate.name = component

theorem childLoop_yields (h : Accepted fs d) (current : Node) (component : List UInt8)
    (left index : ℕ) (hend : index + left ≤ fs.entries) :
    Yields d (childLoop fs current component left index)
      (some (((List.range' index left).filterMap (entryAt fs d.content)).find? fun candidate =>
        candidate.parent = current.index ∧ candidate.name = component)) := by
  induction left generalizing index with
  | zero => exact rfl
  | succ left ih =>
    obtain ⟨candidate, hcandidate, -⟩ := h.entries index (by omega)
    refine (readEntry_yields h index).bind ?_
    rw [hcandidate, List.range'_succ, List.filterMap_cons_some hcandidate, List.find?_cons]
    dsimp only
    by_cases hmatch : candidate.parent = current.index ∧ candidate.name = component
    · rw [if_neg (by simp [hmatch]), decide_eq_true hmatch]
      exact rfl
    · rw [if_pos (Decidable.not_and_iff_not_or_not.mp hmatch), decide_eq_false hmatch]
      exact ih (index + 1) (by omega)

theorem lookupStep_yields (h : Accepted fs d) (current : Node) (component : List UInt8) :
    Yields d (lookupStep fs current component)
      (stepAt (entryAt fs d.content) fs.entries current component) := by
  unfold lookupStep stepAt
  split
  · exact rfl
  split
  · exact rfl
  split
  · exact readEntry_yields h _
  split
  · exact rfl
  · have hroot : 0 < fs.entries := by
      obtain ⟨root, hroot, -⟩ := h.root
      exact (entryAt_eq_some hroot).1
    exact (childLoop_yields h current component _ 1 (by omega)).bind rfl

theorem lookupLoop_yields (h : Accepted fs d) (fuel : ℕ) (cursor : List UInt8) (current : Node) :
    Yields d (lookupLoop fs fuel cursor current)
      (eachWord isSeparator (stepAt (entryAt fs d.content) fs.entries) fuel cursor current) := by
  induction fuel generalizing cursor current with
  | zero => exact rfl
  | succ fuel ih =>
    rw [lookupLoop, eachWord]
    cases cursor.dropWhile isSeparator with
    | nil => exact rfl
    | cons c rest =>
      refine (lookupStep_yields h _ _).bind ?_
      dsimp only
      cases stepAt (entryAt fs d.content) fs.entries current
          ((c :: rest).takeWhile fun c => !isSeparator c) with
      | none => exact rfl
      | some next => exact ih _ _

/-- **`lookup` follows the components of the path**, from the root or from its base. -/
theorem lookup_yields (h : Accepted fs d) {root : Node} (hroot : entryAt fs d.content 0 = some root)
    (path : List UInt8) (base : Option Node) :
    Yields d (lookup fs path base) ((words isSeparator path).foldlM
      (stepAt (entryAt fs d.content) fs.entries)
        ((if path.head? = some slash then none else base).getD root)) := by
  unfold lookup
  dsimp only
  split
  · next current hcurrent =>
    rw [hcurrent, ← eachWord_eq _ le_rfl]
    exact lookupLoop_yields h _ _ _
  · next hcurrent =>
    rw [hcurrent, ← eachWord_eq _ le_rfl]
    refine (readEntry_yields h 0).bind ?_
    rw [hroot]
    exact lookupLoop_yields h _ _ _

/-! ## Going up -/

/-- The entries on the way from the root to an entry, itself included and the root not. -/
inductive Lineage (entry : ℕ → Option Node) : List Node → Node → Prop
  | root {node : Node} (h : entry 0 = some node) : Lineage entry [] node
  | child {nodes : List Node} {parent node : Node} (h : Lineage entry nodes parent)
    (hnode : entry node.index = some node) (hne : node.index ≠ 0)
    (hparent : entry node.parent = some parent) : Lineage entry (nodes ++ [node]) node

theorem entryAt_index {index : ℕ} (h : entryAt fs d.content index = some node) :
    node.index = index :=
  congrArg Node.index (decodeEntry_eq_some (entryAt_eq_some h).2).1

theorem Lineage.entry {nodes : List Node} (h : Lineage (entryAt fs d.content) nodes node) :
    ∀ a ∈ nodes, entryAt fs d.content a.index = some a := by
  induction h with
  | root h => exact fun a ha => nomatch ha
  | child h hnode hne hparent ih =>
    intro a ha
    rcases List.mem_append.mp ha with ha | ha
    · exact ih a ha
    · exact List.mem_singleton.mp ha ▸ hnode

theorem chainLoop_yields (haccepted : Accepted fs d) {nodes : List Node}
    (h : Lineage (entryAt fs d.content) nodes node) {left : ℕ} (hleft : nodes.length ≤ left)
    (chain : List ℕ) :
    Yields d (chainLoop fs left node chain) (some (nodes.map Node.index ++ chain)) := by
  induction h generalizing left chain with
  | root h =>
    have hzero := entryAt_index h
    cases left with
    | zero => exact if_pos hzero
    | succ left =>
      rw [chainLoop, if_pos hzero]
      exact rfl
  | @child nodes parent node h hnode hne hparent ih =>
    rw [List.length_append, List.length_singleton] at hleft
    obtain ⟨left, rfl⟩ : ∃ k, left = k + 1 := ⟨left - 1, by omega⟩
    rw [chainLoop, if_neg hne]
    refine (readEntry_yields haccepted _).bind ?_
    rw [hparent, List.map_append, List.append_assoc]
    exact ih (Nat.le_of_succ_le_succ hleft) _

/-- The first loop gives up on an entry that is not at most `left` steps below the root. -/
theorem chainLoop_none (haccepted : Accepted fs d) (left : ℕ) (node : Node) (chain : List ℕ)
    (hnode : entryAt fs d.content node.index = some node) :
    Yields d (chainLoop fs left node chain) none ∨
      ∃ nodes, Lineage (entryAt fs d.content) nodes node ∧ nodes.length ≤ left := by
  induction left generalizing node chain with
  | zero =>
    by_cases hzero : node.index = 0
    · exact .inr ⟨[], .root (hzero ▸ hnode), le_rfl⟩
    · exact .inl (if_neg hzero)
  | succ left ih =>
    by_cases hzero : node.index = 0
    · exact .inr ⟨[], .root (hzero ▸ hnode), Nat.zero_le _⟩
    rw [chainLoop, if_neg hzero]
    cases hparent : entryAt fs d.content node.parent with
    | none =>
      refine .inl ((readEntry_yields haccepted _).bind ?_)
      rw [hparent]
      exact rfl
    | some parent =>
      rcases ih parent (node.index :: chain) (by rwa [entryAt_index hparent]) with hnone | hsome
      · refine .inl ((readEntry_yields haccepted _).bind ?_)
        rw [hparent]
        exact hnone
      · obtain ⟨nodes, hlineage, hlength⟩ := hsome
        refine .inr ⟨nodes ++ [node], .child hlineage hnode hzero hparent, ?_⟩
        rw [List.length_append, List.length_singleton]
        omega

/-- The second loop puts the names behind the path, with a separator between two. -/
theorem namesLoop_yields (haccepted : Accepted fs d) (capacity : ℕ) (nodes : List Node)
    (hnodes : ∀ a ∈ nodes, entryAt fs d.content a.index = some a) (path : List UInt8)
    (hpath : path.length < capacity) :
    Yields d (namesLoop fs capacity (nodes.map Node.index) path)
      (Text.append capacity path ((nodes.map Node.name).flatMap (slash :: ·)).tail) := by
  induction nodes generalizing path with
  | nil => exact (Text.append_nothing hpath).symm
  | cons a rest ih =>
    obtain ⟨ha, hrest⟩ := List.forall_mem_cons.mp hnodes
    rw [List.map_cons, namesLoop, List.map_cons, List.flatMap_cons, List.cons_append,
      List.tail_cons, Text.append_twice]
    refine (readEntry_yields haccepted _).bind ?_
    rw [ha]
    dsimp only
    cases hname : Text.append capacity path a.name with
    | none => exact rfl
    | some path₁ =>
      cases rest with
      | nil => exact (Text.append_nothing (Text.append_eq_some hname).2).symm
      | cons b rest =>
        change Yields d (match Text.append capacity path₁ [slash] with
          | none => .pure none
          | some path => namesLoop fs capacity ((b :: rest).map Node.index) path)
          (Text.append capacity path₁
            ([slash] ++ (((b :: rest).map Node.name).flatMap (slash :: ·)).tail))
        rw [Text.append_twice]
        cases hslash : Text.append capacity path₁ [slash] with
        | none => exact rfl
        | some path₂ => exact ih hrest path₂ (Text.append_eq_some hslash).2

/-- A path is a separator with the rest behind it. -/
theorem copy_render (capacity : ℕ) (names : List (List UInt8)) :
    Text.copy capacity (render names) =
      Text.append capacity [slash] (names.flatMap (slash :: ·)).tail := by
  have hrender : render names = slash :: (names.flatMap (slash :: ·)).tail := by
    cases names <;> rfl
  rw [hrender, Text.copy, Text.append, List.length_cons, List.length_singleton, Nat.add_comm _ 1]
  rfl

/-- **`path_of` gives the names on the way** from the root, if they fit. -/
theorem pathOf_yields (haccepted : Accepted fs d) {nodes : List Node}
    (h : Lineage (entryAt fs d.content) nodes node) (hdepth : nodes.length ≤ maxDepth)
    (capacity : ℕ) :
    Yields d (pathOf fs node capacity) (Text.copy capacity (render (nodes.map Node.name))) := by
  rw [pathOf, Text.copy, List.length_singleton, copy_render]
  by_cases hslash : 1 + 1 > capacity
  · rw [if_pos hslash, Text.append, if_pos (by rw [List.length_singleton]; omega)]
    exact rfl
  rw [if_neg hslash]
  dsimp only
  have hroom : [slash].length < capacity := by
    rw [List.length_singleton]
    omega
  split
  · next hzero =>
    obtain rfl : nodes = [] := by
      cases h with
      | root h => rfl
      | child h hnode hne hparent => exact absurd hzero hne
    exact (Text.append_nothing hroom).symm
  · refine (chainLoop_yields haccepted h hdepth []).bind ?_
    rw [List.append_nil]
    exact namesLoop_yields haccepted capacity nodes h.entry [slash] hroom

/-- `path_of` fails on an entry that is not at most 16 steps below the root. -/
theorem pathOf_none (haccepted : Accepted fs d)
    (hnode : entryAt fs d.content node.index = some node)
    (h : ¬∃ nodes, Lineage (entryAt fs d.content) nodes node ∧ nodes.length ≤ maxDepth)
    (capacity : ℕ) : Yields d (pathOf fs node capacity) none := by
  have hchain := (chainLoop_none haccepted maxDepth node [] hnode).resolve_right h
  have hne : node.index ≠ 0 := fun hzero => h ⟨[], .root (hzero ▸ hnode), Nat.zero_le _⟩
  rw [pathOf]
  split
  · exact rfl
  · rw [if_neg hne]
    exact hchain.bind rfl

/-! ## Trees -/

/-- The entries of an image form a tree: all but the root have directories as parents, and names
that tell siblings apart. -/
structure Tree (entry : ℕ → Option Node) : Prop where
  parent : ∀ index node parent, index ≠ 0 → entry index = some node →
    entry node.parent = some parent → parent.directory = true
  name : ∀ index node, index ≠ 0 → entry index = some node → IsPlain node.name
  distinct : ∀ i j a b, i ≠ 0 → j ≠ 0 → entry i = some a → entry j = some b →
    a.parent = b.parent → a.name = b.name → i = j

theorem stepAt_child (htree : Tree (entryAt fs d.content)) {parent : Node}
    (hnode : entryAt fs d.content node.index = some node) (hne : node.index ≠ 0)
    (hparent : entryAt fs d.content node.parent = some parent) :
    stepAt (entryAt fs d.content) fs.entries parent node.name = some node := by
  obtain ⟨hindex, hdecode⟩ := entryAt_eq_some hnode
  obtain ⟨hfields, hlength, -, -⟩ := decodeEntry_eq_some hdecode
  have hplain := htree.name _ node hne hnode
  have hself := entryAt_index hparent
  have hname : node.name.length ≤ maxName := by
    rw [hfields]
    exact hlength
  rw [stepAt, if_neg (by omega), if_neg hplain.ne_dot, if_neg hplain.ne_dotDot,
    htree.parent _ node parent hne hnode hparent, Bool.not_true, if_neg Bool.false_ne_true]
  have hmem : node ∈ (List.range' 1 (fs.entries - 1)).filterMap (entryAt fs d.content) := by
    refine List.mem_filterMap.mpr ⟨node.index, ?_, hnode⟩
    rw [List.mem_range'_1]
    omega
  have hsome : (((List.range' 1 (fs.entries - 1)).filterMap (entryAt fs d.content)).find?
      fun candidate => candidate.parent = parent.index ∧ candidate.name = node.name).isSome :=
    List.find?_isSome.mpr ⟨node, hmem, by simp [hself]⟩
  obtain ⟨found, hfound⟩ := Option.isSome_iff_exists.mp hsome
  rw [hfound]
  obtain ⟨i, hi, hentry⟩ := List.mem_filterMap.mp (List.mem_of_find?_eq_some hfound)
  have hdecide := List.find?_some hfound
  obtain ⟨hsibling, hsame⟩ := of_decide_eq_true hdecide
  rw [List.mem_range'_1] at hi
  have hi : i = node.index := htree.distinct i node.index found node (by omega) hne hentry hnode
    (hsibling.trans hself) hsame
  rw [hi, hnode] at hentry
  rw [hentry]

/-- The names on the way lead to the entry. -/
theorem foldlM_stepAt (htree : Tree (entryAt fs d.content)) {root : Node}
    (hroot : entryAt fs d.content 0 = some root) {nodes : List Node}
    (h : Lineage (entryAt fs d.content) nodes node) :
    (nodes.map Node.name).foldlM (stepAt (entryAt fs d.content) fs.entries) root = some node ∧
      Plain (nodes.map Node.name) := by
  induction h with
  | root h => exact ⟨hroot.symm.trans h, fun name hname => nomatch hname⟩
  | child h hnode hne hparent ih =>
    rw [List.map_append, List.foldlM_append, ih.1]
    refine ⟨?_, ih.2.append (htree.name _ _ hne hnode)⟩
    change (stepAt _ _ _ _).bind _ = _
    rw [stepAt_child htree hnode hne hparent]
    rfl

/-- **`path_of` and `lookup` are inverse.** -/
theorem pathOf_lookup (hworks : ∀ n, d.faults n = none)
    (hmount : (runDevice (mount d.blockSize d.blockCount) d).1 = some fs)
    (hnode : entryAt fs d.content node.index = some node) (capacity : ℕ) :
    (∀ nodes, Tree (entryAt fs d.content) → Lineage (entryAt fs d.content) nodes node →
      nodes.length ≤ maxDepth → ∀ base,
        (runDevice (pathOf fs node capacity) d).1 =
          (if (render (nodes.map Node.name)).length + 1 > capacity then none
            else some (render (nodes.map Node.name))) ∧
        (runDevice (lookup fs (render (nodes.map Node.name)) base) d).1 = some node ∧
        ∀ path, path.head? ≠ some slash →
          (runDevice (lookup fs (render (nodes.map Node.name) ++ slash :: path) base) d).1 =
            (runDevice (lookup fs path (some node)) d).1) ∧
    ((¬∃ nodes, Lineage (entryAt fs d.content) nodes node ∧ nodes.length ≤ maxDepth) →
      (runDevice (pathOf fs node capacity) d).1 = none) := by
  have haccepted : Accepted fs d := (runDevice_of_always mount_always).1 fs hmount
  obtain ⟨root, hroot, -⟩ := haccepted.root
  refine ⟨fun nodes htree hlineage hdepth base => ?_,
    fun hnone => (pathOf_none haccepted hnode hnone capacity).run hworks⟩
  -- the names on the way down from the root
  obtain ⟨hdown, hplain⟩ := foldlM_stepAt htree hroot hlineage
  have hlookup := fun path base => (lookup_yields haccepted hroot path base).run hworks
  refine ⟨(pathOf_yields haccepted hlineage hdepth capacity).run hworks, ?_, fun path hpath => ?_⟩
  · rw [hlookup, if_pos (head_render _), words_render hplain]
    exact hdown
  · have hhead : (render (nodes.map Node.name) ++ slash :: path).head? = some slash := by
      rw [List.head?_append, head_render]
      rfl
    rw [hlookup, hlookup, if_pos hhead, if_neg hpath,
      words_append_cons _ _ isSeparator_slash, words_render hplain, List.foldlM_append]
    change Option.bind (List.foldlM _ root _) _ = _
    rw [hdown]
    rfl

/-- The entries of the image of a directory with two files. -/
def smallEntries : List Node :=
  [⟨[], true, 0, 0, 0⟩, ⟨[97], true, 0, 1, 0⟩, ⟨[98], false, 3, 2, 1⟩, ⟨[99], false, 0, 3, 1⟩]

theorem entryAt_smallImage :
    ∀ index, entryAt smallFs smallImage.content index = smallEntries[index]?
  | 0 | 1 | 2 | 3 => by decide +kernel
  | _ + 4 => if_pos (Nat.le_add_left _ _)

theorem tree_smallImage : Tree (entryAt smallFs smallImage.content) := by
  rw [funext entryAt_smallImage]
  refine ⟨fun i node parent hi h hparent => ?_, fun i node hi h => ?_,
    fun i j a b hi hj ha hb => ?_⟩
  · rcases i with _ | _ | _ | _ | i <;> cases h <;> cases hparent <;> rfl
  · rcases i with _ | _ | _ | _ | i <;> cases h
    · exact absurd rfl hi
    all_goals exact ⟨by decide, List.forall_mem_singleton.mpr rfl, by decide, by decide⟩
  · rcases i with _ | _ | _ | _ | i <;> cases ha <;>
      rcases j with _ | _ | _ | _ | j <;> cases hb <;> first | contradiction | decide

/-- A file in a directory. -/
theorem pathOf_lookup_smallImage :
    (runDevice (pathOf smallFs ⟨[98], false, 3, 2, 1⟩ 5) smallImage).1 =
        some [slash, 97, slash, 98] ∧
      (runDevice (lookup smallFs [slash, 97, slash, 98] none) smallImage).1 =
        some ⟨[98], false, 3, 2, 1⟩ ∧
      (runDevice (pathOf smallFs ⟨[98], false, 3, 2, 1⟩ 4) smallImage).1 = none := by
  have hlineage : Lineage (entryAt smallFs smallImage.content)
      ([⟨[97], true, 0, 1, 0⟩] ++ [⟨[98], false, 3, 2, 1⟩]) ⟨[98], false, 3, 2, 1⟩ := by
    rw [funext entryAt_smallImage]
    have hdirectory : Lineage (smallEntries[·]?) ([] ++ [⟨[97], true, 0, 1, 0⟩])
        ⟨[97], true, 0, 1, 0⟩ := .child (.root rfl) rfl (by decide) rfl
    exact .child hdirectory rfl (by decide) rfl
  have hinverse (capacity : ℕ) := (pathOf_lookup (d := smallImage) (fun _ => rfl) mount_smallImage
    (entryAt_smallImage 2) capacity).1 _ tree_smallImage hlineage (by decide) none
  exact ⟨(hinverse 5).1, (hinverse 5).2.1, (hinverse 4).1⟩

end ShirleysOS.Shrfs
