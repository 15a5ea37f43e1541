import ShirleysOS.Lib.Words
import ShirleysOS.Text.Strings

/-!
# Paths

The kernel works on paths as strings in buffers of 512 bytes. A canonical path is the string of a
list of names, and on canonical paths the operations are those on the lists: going up drops the
last name, a path lies under another when its names begin with those of the other. `normalize`
makes any path canonical. Source: `kernel/fs/vfs.cpp`.
-/

namespace ShirleysOS.Vfs

open Lib

abbrev maxPathLength : ℕ := 512

abbrev maxNameLength : ℕ := 255

/-- The size of a buffer for one component. -/
abbrev maxComponent : ℕ := maxNameLength + 1

/-- The byte of `/`. -/
abbrev slash : UInt8 := 0x2F

/-- The component `.`. -/
abbrev dot : List UInt8 := [0x2E]

/-- The component `..`. -/
abbrev dotDot : List UInt8 := [0x2E, 0x2E]

def isSeparator (value : UInt8) : Bool := value == slash

/-! ## The operations -/

/-- The loop of `remove_last_component`: how much of the buffer stands before the last component. -/
def beforeLast (buffer : List UInt8) : ℕ → ℕ
  | 0 => 0
  | length + 1 =>
    if length + 1 > 1 ∧ (buffer[length]?.map isSeparator) = some false then
      beforeLast buffer length
    else length + 1

/-- `remove_last_component`: the separator goes too, but for that of the root. -/
def removeLastComponent (buffer : List UInt8) : List UInt8 :=
  let length := beforeLast buffer buffer.length
  buffer.take (if length > 1 then length - 1 else length)

/-- `append_component`. -/
def appendComponent (buffer : List UInt8) (capacity : ℕ) (component : List UInt8) :
    Option (List UInt8) :=
  if buffer.length = 1 then Text.append capacity buffer component
  else
    match Text.append capacity buffer [slash] with
    | none => none
    | some buffer => Text.append capacity buffer component

/-- `path_starts_with`: the second path is the first or lies above it. -/
def pathStartsWith (path above : List UInt8) : Bool :=
  if !Text.equalsFirst path above above.length then false
  else if above.length = 1 then true
  else
    match path[above.length]? with
    | none => true
    | some next => isSeparator next

/-- One component of `normalize`. -/
def normalizeStep (capacity : ℕ) (buffer component : List UInt8) : Option (List UInt8) :=
  if component.length + 1 > maxComponent then none
  else if component = dot then some buffer
  else if component = dotDot then some (removeLastComponent buffer)
  else appendComponent buffer capacity component

/-- `normalize` into a buffer of `capacity` bytes; `base` is `none` when it is null. -/
def normalize (path : List UInt8) (base : Option (List UInt8)) (capacity : ℕ) :
    Option (List UInt8) :=
  let start :=
    if path.head? = some slash ∨ base.getD [] = [] then [slash] else base.getD []
  match Text.copy capacity start with
  | none => none
  | some buffer => eachWord isSeparator (normalizeStep capacity) path.length path buffer

/-! ## Canonical paths -/

/-- What stands between separators. -/
abbrev IsWord (word : List UInt8) : Prop := word ≠ [] ∧ ∀ c ∈ word, isSeparator c = false

/-- A component that stands for itself in a path. -/
structure IsPlain (name : List UInt8) : Prop where
  ne_nil : name ≠ []
  separator : ∀ c ∈ name, isSeparator c = false
  ne_dot : name ≠ dot
  ne_dotDot : name ≠ dotDot

/-- A name that can stand in a canonical path. -/
structure IsName (name : List UInt8) : Prop extends IsPlain name where
  length : name.length ≤ maxNameLength

theorem isName_singleton {c : UInt8} (hseparator : isSeparator c = false) (hdot : c ≠ 0x2E) :
    IsName [c] where
  ne_nil := List.cons_ne_nil _ _
  separator _ hc := List.mem_singleton.mp hc ▸ hseparator
  ne_dot h := hdot (List.cons.inj h).1
  ne_dotDot h := nomatch congrArg List.length h
  length := by
    rw [List.length_singleton]
    decide

def Canonical (names : List (List UInt8)) : Prop := ∀ name ∈ names, IsName name

/-- Components that stand for themselves, however long they are. -/
def Plain (names : List (List UInt8)) : Prop := ∀ name ∈ names, IsPlain name

/-- The path of a list of names. -/
def render : List (List UInt8) → List UInt8
  | [] => [slash]
  | names@(_ :: _) => names.flatMap (slash :: ·)

/-- What a component does to the path that it follows. -/
def resolveStep (names : List (List UInt8)) (component : List UInt8) : List (List UInt8) :=
  if component = dot then names
  else if component = dotDot then names.dropLast
  else names ++ [component]

/-- What a path means, as names, when it is taken from a directory. -/
def resolve (path : List UInt8) (directory : List (List UInt8)) : List (List UInt8) :=
  (words isSeparator path).foldl resolveStep
    (if path.head? = some slash then [] else directory)

theorem isSeparator_slash : isSeparator slash = true := rfl

variable {names names' components : List (List UInt8)} {capacity : ℕ} {path : List UInt8}
  {base : Option (List (List UInt8))}

theorem render_of_ne_nil (h : names ≠ []) : render names = names.flatMap (slash :: ·) := by
  cases names with
  | nil => exact absurd rfl h
  | cons name names => rfl

theorem head_render (names : List (List UInt8)) : (render names).head? = some slash := by
  cases names with
  | nil => rfl
  | cons name names => rfl

theorem render_append_singleton (names : List (List UInt8)) (name : List UInt8) :
    render (names ++ [name]) = names.flatMap (slash :: ·) ++ slash :: name := by
  rw [render_of_ne_nil (List.append_ne_nil_of_right_ne_nil _ (List.cons_ne_nil _ _)),
    List.flatMap_append, List.flatMap_singleton]

theorem Canonical.plain (h : Canonical names) : Plain names :=
  fun name hname => (h name hname).toIsPlain

theorem canonical_nil : Canonical [] := fun _ hname => absurd hname List.not_mem_nil

theorem Plain.append {name : List UInt8} (h : Plain names) (hname : IsPlain name) :
    Plain (names ++ [name]) := by
  intro other hother
  rcases List.mem_append.mp hother with hother | hother
  · exact h other hother
  · exact List.mem_singleton.mp hother ▸ hname

theorem Plain.dropLast (h : Plain names) : Plain names.dropLast :=
  fun name hname => h name (List.dropLast_subset _ hname)

theorem Canonical.append {name : List UInt8} (h : Canonical names) (hname : IsName name) :
    Canonical (names ++ [name]) := by
  intro other hother
  rcases List.mem_append.mp hother with hother | hother
  · exact h other hother
  · exact List.mem_singleton.mp hother ▸ hname

theorem Canonical.dropLast (h : Canonical names) :
    Canonical names.dropLast := fun name hname => h name (List.dropLast_subset _ hname)

theorem Canonical.above {above : List (List UInt8)} (h : Canonical names)
    (habove : above <+: names) : Canonical above := fun name hname => h name (habove.subset hname)

theorem words_flatMap (h : Plain names) :
    words isSeparator (names.flatMap (slash :: ·)) = names := by
  induction names with
  | nil => rfl
  | cons name names ih =>
    obtain ⟨hname, hnames⟩ := List.forall_mem_cons.mp h
    rw [List.flatMap_cons, List.cons_append, words_cons_sep _ isSeparator_slash]
    have hword := words_word hname.ne_nil hname.separator
    cases names with
    | nil => rw [List.flatMap_nil, List.append_nil, hword]
    | cons next names =>
      have hrest := ih hnames
      rw [List.flatMap_cons, List.cons_append, words_cons_sep _ isSeparator_slash] at hrest
      rw [List.flatMap_cons, List.cons_append, words_append_cons _ _ isSeparator_slash, hword,
        hrest]
      rfl

/-- **The components of a canonical path are its names.** -/
theorem words_render (h : Plain names) : words isSeparator (render names) = names := by
  cases names with
  | nil => rfl
  | cons name names => exact words_flatMap h

theorem render_inj (h : Plain names) (h' : Plain names') (heq : render names = render names') :
    names = names' := by
  rw [← words_render h, heq, words_render h']

/-! ## The operations on canonical paths -/

/-- The loop stops behind the last separator. -/
theorem beforeLast_append (before : List UInt8) {last : List UInt8}
    (hlast : ∀ c ∈ last, isSeparator c = false) {k : ℕ} (hk : k ≤ last.length) :
    beforeLast (before ++ slash :: last) (before.length + 1 + k) = before.length + 1 := by
  induction k with
  | zero =>
    rw [Nat.add_zero, beforeLast, if_neg]
    rw [List.getElem?_append_right (Nat.le_refl _), Nat.sub_self, List.getElem?_cons_zero]
    exact fun h => nomatch h.2
  | succ k ih =>
    have hchar : (before ++ slash :: last)[before.length + 1 + k]?.map isSeparator =
        some false := by
      have hat : before.length + 1 + k - before.length = k + 1 := by omega
      rw [List.getElem?_append_right (by omega), hat, List.getElem?_cons_succ,
        List.getElem?_eq_getElem (Nat.lt_of_succ_le hk), Option.map_some,
        hlast _ (List.getElem_mem _)]
    rw [← Nat.add_assoc, beforeLast, if_pos ⟨by omega, hchar⟩]
    exact ih (Nat.le_of_succ_le hk)

/-- **Going up** drops the last name; the root stays. -/
theorem removeLastComponent_render (h : Plain names) :
    removeLastComponent (render names) = render names.dropLast := by
  rcases List.eq_nil_or_concat names with rfl | ⟨above, last, rfl⟩
  · rfl
  · rw [List.concat_eq_append] at h ⊢
    have hlast : IsPlain last := h last (List.mem_append_right _ (List.mem_singleton_self last))
    have hlength : (above.flatMap (slash :: ·) ++ slash :: last).length =
        (above.flatMap (slash :: ·)).length + 1 + last.length := by
      rw [List.length_append, List.length_cons]
      omega
    rw [removeLastComponent, render_append_singleton, hlength,
      beforeLast_append _ hlast.separator (Nat.le_refl _), List.dropLast_concat]
    cases above with
    | nil => rfl
    | cons name above =>
      rw [if_pos (by rw [List.flatMap_cons, List.cons_append, List.length_cons]; omega),
        Nat.add_sub_cancel, List.take_left]
      rfl

theorem length_render_ne_one (h : Plain names) (hne : names ≠ []) : (render names).length ≠ 1 := by
  cases names with
  | nil => exact absurd rfl hne
  | cons name names =>
    have hname := (h name List.mem_cons_self).ne_nil
    rw [render, List.flatMap_cons, List.length_append, List.length_cons]
    have := List.length_pos_iff.mpr hname
    omega

theorem length_render_lt {above : List (List UInt8)} (hnames : Plain names) (h : above <+: names)
    (hne : above.length < names.length) : (render above).length < (render names).length := by
  obtain ⟨rest, rfl⟩ := h
  rw [List.length_append, Nat.lt_add_right_iff_pos, List.length_pos_iff] at hne
  cases above with
  | nil =>
    have hone := length_render_ne_one hnames hne
    have hpos : 0 < (render ([] ++ rest)).length := by
      cases rest with
      | nil => exact absurd rfl hne
      | cons name rest => exact Nat.succ_pos _
    have hroot : (render ([] : List (List UInt8))).length = 1 := rfl
    omega
  | cons name above =>
    rw [render_of_ne_nil (List.append_ne_nil_of_left_ne_nil (List.cons_ne_nil _ _) _),
      render_of_ne_nil (List.cons_ne_nil _ _), List.flatMap_append, List.length_append,
      Nat.lt_add_right_iff_pos, List.length_pos_iff]
    cases rest with
    | nil => exact absurd rfl hne
    | cons name rest => exact List.cons_ne_nil _ _

theorem length_render_le {above : List (List UInt8)} (hnames : Plain names) (h : above <+: names) :
    (render above).length ≤ (render names).length := by
  rcases Nat.lt_or_ge above.length names.length with hlt | hge
  · exact Nat.le_of_lt (length_render_lt hnames h hlt)
  · obtain rfl := h.eq_of_length (Nat.le_antisymm h.length_le hge)
    exact Nat.le_refl _

theorem length_render_dropLast (hnames : Plain names) :
    (render names.dropLast).length ≤ (render names).length :=
  length_render_le hnames <| List.dropLast_prefix names

/-- **Appending a component** appends the name, when the path still fits. -/
theorem appendComponent_render (h : Plain names) (capacity : ℕ) (component : List UInt8) :
    appendComponent (render names) capacity component =
      Text.copy capacity (render (names ++ [component])) := by
  rw [render_append_singleton, Text.copy, List.length_append, List.length_cons]
  cases names with
  | nil =>
    have hone : (render []).length = 1 := rfl
    rw [appendComponent, if_pos hone, Text.append, hone]
    refine if_congr ?_ rfl rfl
    rw [List.flatMap_nil, List.length_nil]
    omega
  | cons name names =>
    rw [appendComponent, if_neg (length_render_ne_one h (List.cons_ne_nil _ _)), Text.append,
      render_of_ne_nil (List.cons_ne_nil _ _), List.length_singleton]
    by_cases hslash : ((name :: names).flatMap (slash :: ·)).length + 1 + 1 > capacity
    · rw [if_pos hslash, if_pos (by omega)]
    · rw [if_neg hslash]
      dsimp only
      rw [Text.append, List.length_append, List.length_singleton, List.append_assoc,
        List.singleton_append]
      refine if_congr ?_ rfl rfl
      omega

/-- **One canonical path starts with another** when its names do. -/
theorem pathStartsWith_render {above : List (List UInt8)} (h : Plain names) (habove : Plain above) :
    pathStartsWith (render names) (render above) = true ↔ above <+: names := by
  rw [pathStartsWith]
  cases above with
  | nil =>
    have hslash : render [] <+: render names := by
      cases names with
      | nil => exact List.prefix_refl _
      | cons name names => exact ⟨_, rfl⟩
    rw [Text.equalsFirst_length.mpr hslash]
    exact iff_of_true rfl List.nil_prefix
  | cons first above =>
    -- behind the shorter path there is nothing, or a separator
    have hne : first :: above ≠ [] := List.cons_ne_nil _ _
    have hone : (render (first :: above)).length ≠ 1 := length_render_ne_one habove hne
    constructor
    · intro hstarts
      split at hstarts
      · cases hstarts
      · rename_i hequal
        rw [Bool.not_eq_true', Bool.not_eq_false] at hequal
        obtain ⟨rest, hrest⟩ := Text.equalsFirst_length.mp hequal
        rw [← hrest, List.getElem?_append_right (Nat.le_refl _), Nat.sub_self] at hstarts
        rw [← words_render h, ← hrest]
        cases rest with
        | nil =>
          have hwords : words isSeparator (render (first :: above) ++ []) = first :: above := by
            rw [List.append_nil, words_render habove]
          exact hwords.symm ▸ List.prefix_refl _
        | cons c rest =>
          obtain rfl : c = slash := eq_of_beq hstarts
          rw [words_append_cons _ _ isSeparator_slash, words_render habove]
          exact List.prefix_append _ _
    · rintro ⟨rest, rfl⟩
      have hsplit : render (first :: above ++ rest) =
          render (first :: above) ++ rest.flatMap (slash :: ·) := by
        rw [render_of_ne_nil (List.append_ne_nil_of_left_ne_nil hne _), render_of_ne_nil hne,
          List.flatMap_append]
      rw [hsplit, Text.equalsFirst_length.mpr (List.prefix_append _ _), Bool.not_true,
        if_neg Bool.false_ne_true, if_neg hone, List.getElem?_append_right (Nat.le_refl _),
        Nat.sub_self]
      cases rest with
      | nil => rfl
      | cons name rest => rfl

/-! ## Normalizing -/

/-- One component of `normalize`, on names. -/
def namesStep (capacity : ℕ) (names : List (List UInt8)) (component : List UInt8) :
    Option (List (List UInt8)) :=
  if component.length + 1 > maxComponent then none
  else if component = dot then some names
  else if component = dotDot then some names.dropLast
  else if (render (names ++ [component])).length + 1 > capacity then none
  else some (names ++ [component])

theorem normalizeStep_render (h : Plain names) (capacity : ℕ) (component : List UInt8) :
    normalizeStep capacity (render names) component =
      (namesStep capacity names component).map render := by
  rw [normalizeStep, namesStep, removeLastComponent_render h, appendComponent_render h, Text.copy]
  split
  · rfl
  split
  · rfl
  split
  · rfl
  split
  · rfl
  · rfl

/-- A component keeps the path canonical, and has its meaning. -/
theorem namesStep_eq_some {component : List UInt8} (h : Plain names)
    (hcomponent : IsWord component) (hstep : namesStep capacity names component = some names') :
    Plain names' ∧ (Canonical names → Canonical names') ∧
      names' = resolveStep names component := by
  rw [namesStep] at hstep
  rw [resolveStep]
  split at hstep
  · cases hstep
  rename_i hlength
  split at hstep
  · rename_i hdot
    obtain rfl := Option.some.inj hstep
    exact ⟨h, id, (if_pos hdot).symm⟩
  rename_i hdot
  rw [if_neg hdot]
  split at hstep
  · rename_i hdotDot
    obtain rfl := Option.some.inj hstep
    exact ⟨h.dropLast, Canonical.dropLast, (if_pos hdotDot).symm⟩
  rename_i hdotDot
  rw [if_neg hdotDot]
  split at hstep
  · cases hstep
  · obtain rfl := Option.some.inj hstep
    have hplain : IsPlain component := ⟨hcomponent.1, hcomponent.2, hdot, hdotDot⟩
    exact ⟨h.append hplain, fun hnames => hnames.append
      ⟨hplain, Nat.le_of_succ_le_succ (Nat.not_lt.mp hlength)⟩, rfl⟩

theorem namesStep_fits {component : List UInt8} (hnames : Plain names)
    (hfits : (render names).length + 1 ≤ capacity)
    (hstep : namesStep capacity names component = some names') :
    (render names').length + 1 ≤ capacity := by
  rw [namesStep] at hstep
  split at hstep
  · cases hstep
  split at hstep
  · obtain rfl := Option.some.inj hstep
    exact hfits
  split at hstep
  · obtain rfl := Option.some.inj hstep
    exact Nat.le_trans (Nat.succ_le_succ (length_render_dropLast hnames)) hfits
  split at hstep
  · cases hstep
  · obtain rfl := Option.some.inj hstep
    omega

theorem foldlM_normalizeStep
    (hcomponents : ∀ component ∈ components, IsWord component) (h : Plain names) :
    components.foldlM (normalizeStep capacity) (render names) =
      (components.foldlM (namesStep capacity) names).map render := by
  induction components generalizing names with
  | nil => rfl
  | cons component components ih =>
    obtain ⟨hcomponent, hrest⟩ := List.forall_mem_cons.mp hcomponents
    rw [List.foldlM_cons, List.foldlM_cons, normalizeStep_render h]
    cases hstep : namesStep capacity names component with
    | none => rfl
    | some names' => exact ih hrest (namesStep_eq_some h hcomponent hstep).1

/-- Where `normalize` starts from. -/
def startNames (path : List UInt8) (base : Option (List (List UInt8))) : List (List UInt8) :=
  if path.head? = some slash then [] else base.getD []

/-- What holds of the root and of the base holds of where `normalize` starts from. -/
theorem startNames_of {P : List (List UInt8) → Prop} (hroot : P [])
    (hbase : ∀ names ∈ base, P names) : P (startNames path base) := by
  rw [startNames]
  split
  · exact hroot
  · cases base with
    | none => exact hroot
    | some names => exact hbase names rfl

/-- **`normalize`** is a fold over the components of the path, on names. -/
theorem normalize_eq (hbase : ∀ names ∈ base, Plain names) (path : List UInt8) (capacity : ℕ) :
    normalize path (base.map render) capacity =
      if (render (startNames path base)).length + 1 > capacity then none
      else ((words isSeparator path).foldlM (namesStep capacity) (startNames path base)).map
        render := by
  have hstart : (if path.head? = some slash ∨ (base.map render).getD [] = [] then [slash]
      else (base.map render).getD []) = render (startNames path base) := by
    rw [startNames]
    by_cases habsolute : path.head? = some slash
    · rw [if_pos (Or.inl habsolute), if_pos habsolute]
      rfl
    · rw [if_neg habsolute]
      cases base with
      | none => exact if_pos (Or.inr rfl)
      | some names =>
        refine if_neg (not_or.mpr ⟨habsolute, ?_⟩)
        cases names with
        | nil => exact List.cons_ne_nil _ _
        | cons name names => exact List.cons_ne_nil _ _
  rw [normalize, hstart, Text.copy]
  by_cases hfits : (render (startNames path base)).length + 1 > capacity
  · rw [if_pos hfits, if_pos hfits]
  · rw [if_neg hfits, if_neg hfits]
    dsimp only
    rw [eachWord_eq _ (Nat.le_refl _),
      foldlM_normalizeStep (fun _ hc => mem_words hc) (startNames_of canonical_nil.plain hbase)]

theorem foldlM_namesStep
    (hcomponents : ∀ component ∈ components, IsWord component) (h : Plain names)
    (hfits : (render names).length + 1 ≤ capacity)
    (hfold : components.foldlM (namesStep capacity) names = some names') :
    Plain names' ∧ (Canonical names → Canonical names') ∧ (render names').length + 1 ≤ capacity ∧
      names' = components.foldl resolveStep names := by
  induction components generalizing names with
  | nil =>
    obtain rfl := Option.some.inj hfold
    exact ⟨h, id, hfits, rfl⟩
  | cons component components ih =>
    obtain ⟨hcomponent, hrest⟩ := List.forall_mem_cons.mp hcomponents
    rw [List.foldlM_cons] at hfold
    obtain ⟨next, hstep, hfold⟩ := Option.bind_eq_some_iff.mp hfold
    have hnextFits := namesStep_fits h hfits hstep
    obtain ⟨hnext, hcanonical, rfl⟩ := namesStep_eq_some h hcomponent hstep
    obtain ⟨hplain, hcanonical', hrest⟩ := ih hrest hnext hnextFits hfold
    exact ⟨hplain, hcanonical' ∘ hcanonical, hrest⟩

theorem forall_none {P : List (List UInt8) → Prop} : ∀ names ∈ none, P names :=
  fun _ h => nomatch h

/-- **A normalized path is canonical**, fits, and is what the path means from its base. -/
theorem normalize_eq_some (hbase : ∀ names ∈ base, Canonical names) {normalized : List UInt8}
    (h : normalize path (base.map render) capacity = some normalized) :
    Canonical (resolve path (base.getD [])) ∧
      (render (resolve path (base.getD []))).length + 1 ≤ capacity ∧
      normalized = render (resolve path (base.getD [])) := by
  rw [normalize_eq fun names hnames => (hbase names hnames).plain] at h
  split at h
  · cases h
  · rename_i hfits
    obtain ⟨names, hfold, rfl⟩ := Option.map_eq_some_iff.mp h
    have hstart : Canonical (startNames path base) := startNames_of canonical_nil hbase
    obtain ⟨-, hcanonical, hfits, rfl⟩ := foldlM_namesStep (fun _ hc => mem_words hc)
      hstart.plain (by omega) hfold
    exact ⟨hcanonical hstart, hfits, rfl⟩

theorem resolve_render (h : Plain names) (directory : List (List UInt8)) :
    resolve (render names) directory = names := by
  have hfold : ∀ {rest behind : List (List UInt8)}, Plain rest →
      rest.foldl resolveStep behind = behind ++ rest := by
    intro rest
    induction rest with
    | nil => exact fun _ => (List.append_nil _).symm
    | cons name rest ih =>
      intro behind hrest
      obtain ⟨hname, hrest⟩ := List.forall_mem_cons.mp hrest
      rw [List.foldl_cons, resolveStep, if_neg hname.ne_dot, if_neg hname.ne_dotDot, ih hrest,
        List.append_assoc, List.singleton_append]
  rw [resolve, words_render h, hfold h, if_pos (head_render names), List.nil_append]

/-- **A canonical path is its own normal form.** -/
theorem normalize_render (h : Canonical names) (hfits : (render names).length + 1 ≤ capacity) :
    normalize (render names) none capacity = some (render names) := by
  have hfold : ∀ {rest behind : List (List UInt8)}, behind ++ rest = names →
      rest.foldlM (namesStep capacity) behind = some names := by
    intro rest
    induction rest with
    | nil =>
      intro behind hsplit
      rw [List.append_nil] at hsplit
      exact congrArg some hsplit
    | cons name rest ih =>
      intro behind hsplit
      have hname : IsName name := h name (hsplit ▸ List.mem_append_right _ List.mem_cons_self)
      have hnext : behind ++ [name] <+: names := ⟨rest, by rw [List.append_assoc]; exact hsplit⟩
      have hroom := length_render_le h.plain hnext
      rw [List.foldlM_cons, namesStep, if_neg (Nat.not_lt.mpr (Nat.succ_le_succ hname.length)),
        if_neg hname.ne_dot, if_neg hname.ne_dotDot, if_neg (by omega)]
      exact ih (by rw [List.append_assoc]; exact hsplit)
  have hroot := length_render_le h.plain <| List.nil_prefix
  have hstart : startNames (render names) none = [] := if_pos (head_render names)
  have hnormalize := normalize_eq forall_none (render names) capacity
  rw [Option.map_none, hstart, words_render h.plain, hfold (List.nil_append names),
    if_neg (by omega)] at hnormalize
  exact hnormalize

/-- **An absolute path that fits is normalized** to the path of its components, when they are
names. -/
theorem normalize_words (hhead : path.head? = some slash)
    (hnames : Canonical (words isSeparator path)) (hfits : path.length + 1 ≤ capacity) :
    normalize path none capacity = some (render (words isSeparator path)) := by
  have hlength : (render (words isSeparator path)).length ≤ path.length := by
    cases path with
    | nil => cases hhead
    | cons first path =>
      obtain rfl : first = slash := Option.some.inj hhead
      rw [words_cons_sep _ isSeparator_slash]
      have hwords := length_flatMap_words (p := isSeparator) slash path
      by_cases hnil : words isSeparator path = []
      · rw [hnil]
        exact Nat.succ_le_succ (Nat.zero_le _)
      · rw [render_of_ne_nil hnil]
        exact hwords
  -- both paths are absolute and have the same components
  have hsame : normalize path none capacity =
      normalize (render (words isSeparator path)) none capacity := by
    have hleft := normalize_eq forall_none path capacity
    have hright := normalize_eq forall_none (render (words isSeparator path)) capacity
    rw [words_render hnames.plain, startNames, if_pos (head_render _)] at hright
    rw [startNames, if_pos hhead] at hleft
    exact hleft.trans hright.symm
  rw [hsame]
  exact normalize_render hnames (by omega)

theorem length_render_append_le (names : List (List UInt8)) (name : List UInt8) :
    (render (names ++ [name])).length ≤ (render names).length + (name.length + 1) := by
  rw [render_append_singleton, List.length_append, List.length_cons]
  cases names with
  | nil =>
    rw [List.flatMap_nil, List.length_nil]
    omega
  | cons first names => exact Nat.le_refl _

theorem foldlM_namesStep_room
    (hcomponents : ∀ component ∈ components, IsWord component)
    (hlengths : ∀ component ∈ components, component.length ≤ maxNameLength) (h : Plain names)
    (hroom : (render names).length + (components.flatMap (slash :: ·)).length < capacity) :
    components.foldlM (namesStep capacity) names = some (components.foldl resolveStep names) := by
  induction components generalizing names with
  | nil => rfl
  | cons component components ih =>
    obtain ⟨hcomponent, hrest⟩ := List.forall_mem_cons.mp hcomponents
    obtain ⟨hlength, hlengths⟩ := List.forall_mem_cons.mp hlengths
    rw [List.flatMap_cons, List.length_append, List.length_cons] at hroom
    have happend := length_render_append_le names component
    have hstep : namesStep capacity names component = some (resolveStep names component) ∧
        (render (resolveStep names component)).length ≤
          (render names).length + (component.length + 1) := by
      rw [namesStep, resolveStep, if_neg (Nat.not_lt.mpr (Nat.succ_le_succ hlength))]
      split
      · exact ⟨rfl, Nat.le_add_right _ _⟩
      split
      · have hup := length_render_dropLast h
        exact ⟨rfl, by omega⟩
      · exact ⟨if_neg (by omega), happend⟩
    rw [List.foldlM_cons, hstep.1, List.foldl_cons]
    exact ih hrest hlengths (namesStep_eq_some h hcomponent hstep.1).1 (by omega)

/-- **With room enough, `normalize`** gives what the path means. -/
theorem normalize_resolve (h : Canonical names)
    (hlengths : ∀ component ∈ words isSeparator path, component.length ≤ maxNameLength)
    (hroom : (render names).length + path.length + 1 < capacity) :
    normalize path (some (render names)) capacity = some (render (resolve path names)) := by
  have hbase : ∀ other ∈ some names, Plain other := fun other hother =>
    Option.some.inj hother ▸ h.plain
  have hstart : (render (startNames path (some names))).length ≤ (render names).length := by
    rw [startNames]
    split
    · exact length_render_le h.plain <| List.nil_prefix
    · exact Nat.le_refl _
  have hwords := length_flatMap_words (p := isSeparator) slash path
  have hnormalize := normalize_eq hbase path capacity
  rw [if_neg (by omega), foldlM_namesStep_room (fun _ hc => mem_words hc) hlengths
    (startNames_of canonical_nil.plain hbase) (by omega)] at hnormalize
  exact hnormalize

end ShirleysOS.Vfs
