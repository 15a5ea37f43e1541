import Mathlib.Data.List.Basic
import Mathlib.Data.List.Flatten
import Mathlib.Algebra.Ring.Nat

/-!
# Words between separators

The words of a list are the longest runs of elements that are no separators. A cursor that skips
separators, takes a word and goes on behind it meets the words in order.
-/

namespace ShirleysOS.Lib

variable {α σ : Type} (p : α → Bool)

/-- The words of a list, where `p` says which elements are separators. -/
def words (l : List α) : List (List α) := (l.splitOnP p).filter fun word => !word.isEmpty

/-- A step for each word: separators are skipped, a word is taken, and the cursor is behind it. -/
def eachWord (step : σ → List α → Option σ) : ℕ → List α → σ → Option σ
  | 0, cursor, state => if (cursor.dropWhile p).isEmpty then some state else none
  | fuel + 1, cursor, state =>
    match cursor.dropWhile p with
    | [] => some state
    | x :: rest =>
      match step state ((x :: rest).takeWhile fun x => !p x) with
      | none => none
      | some state => eachWord step fuel ((x :: rest).dropWhile fun x => !p x) state

variable {p}

@[simp] theorem words_nil : words p ([] : List α) = [] := rfl

theorem words_append_cons (l l' : List α) {sep : α} (hsep : p sep = true) :
    words p (l ++ sep :: l') = words p l ++ words p l' := by
  rw [words, List.splitOnP_append_cons l l' hsep, List.filter_append]
  rfl

theorem words_cons_sep (l : List α) {sep : α} (hsep : p sep = true) :
    words p (sep :: l) = words p l := words_append_cons [] l hsep

theorem words_word {word : List α} (hne : word ≠ []) (hword : ∀ x ∈ word, p x = false) :
    words p word = [word] := by
  rw [words, List.splitOnP_eq_singleton hword]
  cases word with
  | nil => exact absurd rfl hne
  | cons x word => rfl

theorem words_dropWhile (l : List α) : words p (l.dropWhile p) = words p l := by
  induction l with
  | nil => rfl
  | cons x l ih =>
    cases hx : p x with
    | true => rw [List.dropWhile_cons_of_pos hx, ih, words_cons_sep l hx]
    | false => rw [List.dropWhile_cons_of_neg (by rw [hx]; exact Bool.false_ne_true)]

theorem takeWhile_congr {q : α → Bool} {l : List α} (h : ∀ x ∈ l, p x = q x) :
    l.takeWhile p = l.takeWhile q := by
  induction l with
  | nil => rfl
  | cons x l ih =>
    obtain ⟨hx, hl⟩ := List.forall_mem_cons.mp h
    rw [List.takeWhile_cons, List.takeWhile_cons, hx, ih hl]

theorem head_dropWhile {x : α} {l rest : List α} (h : l.dropWhile p = x :: rest) :
    p x = false := by
  have hhead := List.head?_dropWhile_not p l
  rw [h] at hhead
  simpa using hhead

theorem words_cons_word (x : α) (l : List α) (hx : p x = false) :
    words p (x :: l) = (x :: l).takeWhile (fun x => !p x) ::
      words p ((x :: l).dropWhile fun x => !p x) := by
  have htake : (x :: l).takeWhile (fun x => !p x) ≠ [] := by
    rw [List.takeWhile_cons_of_pos (by rw [hx]; rfl)]
    exact List.cons_ne_nil _ _
  have hword : ∀ y ∈ (x :: l).takeWhile (fun x => !p x), p y = false := by
    intro y hy
    simpa using List.all_eq_true.mp List.all_takeWhile y hy
  conv_lhs => rw [← List.takeWhile_append_dropWhile (p := fun x => !p x) (l := x :: l)]
  generalize (x :: l).takeWhile (fun x => !p x) = word at htake hword ⊢
  cases hrest : (x :: l).dropWhile (fun x => !p x) with
  | nil => rw [List.append_nil, words_word htake hword, words_nil]
  | cons sep rest =>
    -- what follows the word is a separator
    have hsep : p sep = true := by simpa using head_dropWhile hrest
    rw [words_append_cons word rest hsep, words_word htake hword, words_cons_sep rest hsep]
    rfl

/-- What is between separators has none, and is from the list. -/
theorem forall_mem_splitOnP (l : List α) :
    ∀ word ∈ l.splitOnP p, ∀ x ∈ word, p x = false ∧ x ∈ l := by
  induction l with
  | nil =>
    intro word hword x hx
    rw [List.splitOnP_nil, List.mem_singleton] at hword
    rw [hword] at hx
    cases hx
  | cons y l ih =>
    have hlater : ∀ {x}, p x = false ∧ x ∈ l → p x = false ∧ x ∈ y :: l := fun hx =>
      ⟨hx.1, List.mem_cons_of_mem y hx.2⟩
    rw [List.splitOnP_cons_eq_if_modifyHead]
    cases hy : p y with
    | true =>
      rw [if_pos rfl]
      exact List.forall_mem_cons.mpr ⟨fun x hx => absurd hx List.not_mem_nil,
        fun word hword x hx => hlater (ih word hword x hx)⟩
    | false =>
      rw [if_neg Bool.false_ne_true]
      cases hsplit : l.splitOnP p with
      | nil => exact absurd hsplit (List.splitOnP_ne_nil p l)
      | cons first rest =>
        rw [hsplit] at ih
        obtain ⟨hfirst, hrest⟩ := List.forall_mem_cons.mp ih
        exact List.forall_mem_cons.mpr ⟨List.forall_mem_cons.mpr ⟨⟨hy, List.mem_cons_self⟩,
          fun x hx => hlater (hfirst x hx)⟩, fun word hword x hx => hlater (hrest word hword x hx)⟩

theorem mem_words {word l : List α} (h : word ∈ words p l) :
    word ≠ [] ∧ ∀ x ∈ word, p x = false := by
  obtain ⟨hmem, hne⟩ := List.mem_filter.mp h
  refine ⟨?_, fun x hx => (forall_mem_splitOnP l word hmem x hx).1⟩
  rintro rfl
  cases hne

theorem subset_of_mem_words {word l : List α} (h : word ∈ words p l) : word ⊆ l :=
  fun x hx => (forall_mem_splitOnP l word (List.mem_filter.mp h).1 x hx).2

/-- The words, with one separator before each, are not longer than the list and one separator. -/
theorem length_flatMap_words (sep : α) (l : List α) :
    ((words p l).flatMap (sep :: ·)).length ≤ l.length + 1 := by
  have hsplit : ∀ l : List α, ((l.splitOnP p).flatMap (sep :: ·)).length = l.length + 1 := by
    intro l
    induction l with
    | nil => rw [List.splitOnP_nil]; rfl
    | cons y l ih =>
      rw [List.splitOnP_cons_eq_if_modifyHead, List.length_cons, ← ih]
      cases hy : p y with
      | true =>
        rw [if_pos rfl, List.flatMap_cons, List.length_append, List.length_singleton, Nat.add_comm]
      | false =>
        rw [if_neg Bool.false_ne_true]
        cases hfirst : l.splitOnP p with
        | nil => exact absurd hfirst (List.splitOnP_ne_nil p l)
        | cons first rest =>
          rw [List.modifyHead_cons, List.flatMap_cons, List.flatMap_cons, List.length_append,
            List.length_append, List.length_cons, List.length_cons, List.length_cons]
          omega
  have hsub : List.Sublist ((words p l).flatMap (sep :: ·)) ((l.splitOnP p).flatMap (sep :: ·)) :=
    List.Sublist.flatMap List.filter_sublist _
  exact hsplit l ▸ hsub.length_le

theorem length_le_of_mem_words {word l : List α} (h : word ∈ words p l) :
    word.length ≤ l.length := by
  cases word with
  | nil => exact Nat.zero_le _
  | cons sep word =>
    have hmem : sep :: sep :: word ∈ (words p l).map (sep :: ·) := List.mem_map.mpr ⟨_, h, rfl⟩
    have hlength := (List.sublist_flatten_of_mem hmem).length_le
    exact Nat.le_of_succ_le_succ (Nat.le_trans hlength (length_flatMap_words sep l))

/-- **A cursor meets the words in order.** -/
theorem eachWord_eq (step : σ → List α → Option σ) {fuel : ℕ} {cursor : List α}
    (hfuel : cursor.length ≤ fuel) (state : σ) :
    eachWord p step fuel cursor state = (words p cursor).foldlM step state := by
  induction fuel generalizing cursor state with
  | zero =>
    obtain rfl := List.length_eq_zero_iff.mp (Nat.le_zero.mp hfuel)
    rfl
  | succ fuel ih =>
    rw [eachWord, ← words_dropWhile cursor]
    have hlength : (cursor.dropWhile p).length ≤ fuel + 1 :=
      Nat.le_trans (List.dropWhile_suffix p).length_le hfuel
    cases hcursor : cursor.dropWhile p with
    | nil => rfl
    | cons x rest =>
      rw [hcursor] at hlength
      have hx : p x = false := head_dropWhile hcursor
      -- the word is not empty, so the cursor moves
      have hbehind : ((x :: rest).dropWhile fun x => !p x).length ≤ fuel := by
        rw [List.dropWhile_cons_of_pos (by rw [hx]; rfl)]
        exact Nat.le_trans (List.dropWhile_suffix _).length_le (Nat.le_of_succ_le_succ hlength)
      rw [words_cons_word x rest hx, List.foldlM_cons]
      dsimp only
      cases step state ((x :: rest).takeWhile fun x => !p x) with
      | none => rfl
      | some state => exact ih hbehind state

end ShirleysOS.Lib
