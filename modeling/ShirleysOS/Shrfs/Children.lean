import ShirleysOS.Shrfs.Paths

/-!
# The children of a directory

`list` counts through the entries that name a directory as their parent, and `lookup` searches the
same entries for a name. Source: `kernel/fs/shrfs.cpp`.
-/

namespace ShirleysOS.Shrfs

open Lib Storage Vfs

/-- The entries from an index on that have a given parent, in the order of the table. -/
def childrenFrom (entry : ℕ → Option Node) (index left parent : ℕ) : List Node :=
  ((List.range' index left).filterMap entry).filter fun child => child.parent = parent

variable {d : Device} {fs : Fs} {directory : Node}

theorem listLoop_yields (h : Accepted fs d) {position : ℕ} (left index seen : ℕ)
    (hend : index + left ≤ fs.entries) (hseen : seen ≤ position) :
    Yields d (listLoop fs directory position left index seen)
      (childrenFrom (entryAt fs d.content) index left directory.index)[position - seen]? := by
  induction left generalizing index seen with
  | zero => exact rfl
  | succ left ih =>
    obtain ⟨candidate, hcandidate, -⟩ := h.entries index (by omega)
    refine (readEntry_yields h index).bind ?_
    rw [childrenFrom, hcandidate, List.range'_succ, List.filterMap_cons_some hcandidate,
      List.filter_cons]
    dsimp only
    by_cases hparent : candidate.parent = directory.index
    · rw [if_neg (not_not_intro hparent), if_pos (decide_eq_true hparent)]
      by_cases hfound : seen = position
      · rw [if_pos hfound, hfound, Nat.sub_self]
        exact rfl
      · -- the child is passed, and the position counts from behind it
        rw [if_neg hfound, show position - seen = position - (seen + 1) + 1 by omega,
          List.getElem?_cons_succ]
        exact ih (index + 1) (seen + 1) (by omega) (by omega)
    · rw [if_pos hparent, if_neg (by simpa using hparent)]
      exact ih (index + 1) seen (by omega) hseen

/-- A name is searched for among the children. -/
theorem stepAt_children {name : List UInt8} (hdirectory : directory.directory = true)
    (hplain : IsPlain name) :
    stepAt (entryAt fs d.content) fs.entries directory name =
      (childrenFrom (entryAt fs d.content) 1 (fs.entries - 1) directory.index).find? fun child =>
        child.name = name := by
  rw [stepAt, childrenFrom, List.find?_filter]
  split
  · -- no entry has a name that is longer than its field
    next hlong =>
    refine (List.find?_eq_none.mpr fun child hchild hmatch => ?_).symm
    obtain ⟨index, -, hentry⟩ := List.mem_filterMap.mp hchild
    obtain ⟨hfields, hlength, -, -⟩ := decodeEntry_eq_some (entryAt_eq_some hentry).2
    have hname : child.name = name := of_decide_eq_true (of_decide_eq_true hmatch).2
    rw [← hname, hfields] at hlong
    exact absurd (Nat.lt_of_succ_lt_succ hlong) (Nat.not_lt.mpr hlength)
  · rw [if_neg hplain.ne_dot, if_neg hplain.ne_dotDot, hdirectory, Bool.not_true,
      if_neg Bool.false_ne_true]
    simp only [Bool.decide_and, decide_eq_true_eq]

/-- **The listing of a directory and the search for a name agree** on a mounted image: the positions
list the entries that name the directory as their parent, each once and without a gap, and `lookup`
of a name from the directory finds the first of these that has it. -/
theorem list_lookup (hworks : ∀ n, d.faults n = none)
    (hmount : (runDevice (mount d.blockSize d.blockCount) d).1 = some fs)
    (hdirectory : directory.directory = true) :
    ∃ children : List Node,
      (∀ position, (runDevice (list fs directory position) d).1 = children[position]?) ∧
      (∀ name, IsPlain name →
        (runDevice (lookup fs name (some directory)) d).1 =
          children.find? fun child => child.name = name) ∧
      (∀ node, node ∈ children ↔ node.index ≠ 0 ∧ entryAt fs d.content node.index = some node ∧
        node.parent = directory.index) ∧
      (children.map Node.index).Pairwise (· < ·) := by
  have h : Accepted fs d := (runDevice_of_always mount_always).1 fs hmount
  obtain ⟨root, hroot, -⟩ := h.root
  have hentries := (entryAt_eq_some hroot).1
  -- the children are the entries behind the root with this parent, in order
  refine ⟨childrenFrom (entryAt fs d.content) 1 (fs.entries - 1) directory.index,
    fun position => ?_, fun name hplain => ?_, fun node => ?_, ?_⟩
  · rw [list, hdirectory]
    exact (listLoop_yields h _ 1 0 (by omega) (Nat.zero_le position)).run hworks
  · have hslash : name.head? ≠ some slash := fun hhead => Bool.false_ne_true
      ((hplain.separator slash (List.mem_of_mem_head? hhead)).symm.trans isSeparator_slash)
    rw [(lookup_yields h hroot name _).run hworks, if_neg hslash,
      words_word hplain.ne_nil hplain.separator]
    change (stepAt _ _ directory name).bind some = _
    rw [Option.bind_fun_some, stepAt_children hdirectory hplain]
  · simp only [childrenFrom, List.mem_filter, List.mem_filterMap, List.mem_range'_1,
      decide_eq_true_eq]
    constructor
    · rintro ⟨⟨index, hindex, hentry⟩, hparent⟩
      obtain rfl := entryAt_index hentry
      exact ⟨by omega, hentry, hparent⟩
    · rintro ⟨hne, hentry, hparent⟩
      have hlt := (entryAt_eq_some hentry).1
      exact ⟨⟨node.index, by omega, hentry⟩, hparent⟩
  · rw [List.pairwise_map]
    refine List.Pairwise.filter _ (List.Pairwise.filterMap _ (fun i j hlt a ha b hb => ?_)
      List.pairwise_lt_range')
    rwa [entryAt_index ha, entryAt_index hb]

/-- The directory of an image with two files. -/
theorem list_lookup_smallImage :
    ∃ children : List Node,
      (∀ position, (runDevice (list smallFs ⟨[97], true, 0, 1, 0⟩ position) smallImage).1 =
        children[position]?) ∧
      (∀ name, IsPlain name →
        (runDevice (lookup smallFs name (some ⟨[97], true, 0, 1, 0⟩)) smallImage).1 =
          children.find? fun child => child.name = name) ∧
      (∀ node, node ∈ children ↔ node.index ≠ 0 ∧
        entryAt smallFs smallImage.content node.index = some node ∧ node.parent = 1) ∧
      (children.map Node.index).Pairwise (· < ·) ∧ children[1]? = some ⟨[99], false, 0, 3, 1⟩ := by
  obtain ⟨children, hlist, hlookup, hmem, hsorted⟩ :=
    list_lookup (d := smallImage) (fun _ => rfl) mount_smallImage
      (show Node.directory ⟨[97], true, 0, 1, 0⟩ = true from rfl)
  have hsecond : (runDevice (list smallFs ⟨[97], true, 0, 1, 0⟩ 1) smallImage).1 =
      some ⟨[99], false, 0, 3, 1⟩ := by decide +kernel
  exact ⟨children, hlist, hlookup, hmem, hsorted, (hlist 1).symm.trans hsecond⟩

end ShirleysOS.Shrfs
