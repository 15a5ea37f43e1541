import ShirleysOS.Text.StringBuffers
import ShirleysOS.Vfs.Path

/-!
# Normalizing in a buffer

`normalize` builds its result in the caller's buffer: going up stores a null where the last
component began, and a component is copied to a buffer of its own before it is appended. Here every
access is to an index of a buffer, and one that is outside of it makes the whole call `none`. What
the call leaves in the buffer is what `Vfs.Path` says about names, and it fails just when a path on
the way does not fit, or a component does not fit its own buffer. Source: `kernel/fs/vfs.cpp`.
-/

namespace ShirleysOS.Vfs

open Lib Text

/-! ## The operations on buffers -/

/-- The loop of `remove_last_component`. -/
def beforeLastBuffer (buffer : List UInt8) : ℕ → Option ℕ
  | 0 => some 0
  | length + 1 =>
    if length + 1 > 1 then do
      let byte ← buffer[length]?
      if !isSeparator byte then beforeLastBuffer buffer length else some (length + 1)
    else some (length + 1)

/-- `remove_last_component` on a buffer. -/
def removeLastBuffer (buffer : List UInt8) : Option (List UInt8) := do
  let used ← stringLength buffer
  let length ← beforeLastBuffer buffer used
  store buffer (if length > 1 then length - 1 else length) 0

/-- `append_component` on a buffer. -/
def appendComponentBuffer (buffer component : List UInt8) : Option (Bool × List UInt8) := do
  let used ← stringLength buffer
  if used = 1 then appendBuffer buffer component
  else
    match ← appendBuffer buffer [slash] with
    | (false, buffer) => some (false, buffer)
    | (true, buffer) => appendBuffer buffer component

/-- The loop of `normalize` that skips separators. -/
def skipSeparators (path : List UInt8) (cursor : ℕ) : Option ℕ :=
  scan isSeparator (path ++ [0]) (path ++ [0]).length cursor

/-- The loop of `normalize` that copies a component to its buffer: its length and the buffer, or no
success when there is no room. -/
def takeComponent (path : List UInt8) (cursor : ℕ) :
    ℕ → ℕ → List UInt8 → Option (Option (ℕ × List UInt8))
  | 0, _, _ => none
  | fuel + 1, length, component => do
    let byte ← byteAt path (cursor + length)
    if byte ≠ 0 ∧ isSeparator byte = false then
      if length + 1 ≥ component.length then some none
      else do
        let component ← store component length byte
        takeComponent path cursor fuel (length + 1) component
    else do
      let component ← store component length 0
      some (some (length, component))

/-- What `normalize` does with the component in its buffer. -/
def applyComponent (buffer component : List UInt8) : Option (Bool × List UInt8) :=
  if component = dot then some (true, buffer)
  else if component = dotDot then do
    let buffer ← removeLastBuffer buffer
    some (true, buffer)
  else appendComponentBuffer buffer component

/-- The loop of `normalize`; `scratch` is what is in the buffer for a component. -/
def normalizeSteps (path scratch : List UInt8) : ℕ → ℕ → List UInt8 → Option (Bool × List UInt8)
  | 0, _, _ => none
  | fuel + 1, cursor, buffer => do
    if (← byteAt path cursor) = 0 then some (true, buffer)
    else
      let cursor ← skipSeparators path cursor
      if (← byteAt path cursor) = 0 then some (true, buffer)
      else
        match ← takeComponent path cursor (path.length + 1) 0 scratch with
        | none => some (false, buffer)
        | some (length, component) =>
          match ← applyComponent buffer (cstring component) with
          | (false, buffer) => some (false, buffer)
          | (true, buffer) => normalizeSteps path scratch fuel (cursor + length) buffer

/-- `normalize` into a buffer: whether it succeeds, and the buffer. -/
def normalizeBuffer (path : List UInt8) (base : Option (List UInt8)) (scratch buffer : List UInt8) :
    Option (Bool × List UInt8) :=
  let start :=
    if path.head? = some slash ∨ base.getD [] = [] then [slash] else base.getD []
  if buffer.length = 0 then some (false, buffer)
  else do
    match ← copyBuffer buffer start with
    | (false, buffer) => some (false, buffer)
    | (true, buffer) => normalizeSteps path scratch (path.length + 1) 0 buffer

/-! ## What the operations do to the string -/

variable {capacity fuel : ℕ} {out rest scratch path : List UInt8} {names : List (List UInt8)}

theorem beforeLastBuffer_eq (rest : List UInt8) {length : ℕ} (hlength : length ≤ out.length) :
    beforeLastBuffer (out ++ rest) length = some (beforeLast out length) := by
  induction length with
  | zero => rfl
  | succ length ih =>
    rw [beforeLastBuffer, beforeLast, List.getElem?_append_left hlength,
      List.getElem?_eq_getElem hlength]
    by_cases hone : length + 1 > 1
    · rw [if_pos hone, Option.bind_eq_bind, Option.bind_some, Option.map_some]
      cases hbyte : isSeparator out[length] with
      | true => rw [if_neg (by simp), if_neg (by simp)]
      | false =>
        rw [if_pos (show (!false) = true from rfl), if_pos ⟨hone, rfl⟩,
          ih (Nat.le_of_succ_le hlength)]
    · rw [if_neg hone, if_neg fun h => hone h.1]

theorem beforeLast_le (out : List UInt8) (length : ℕ) : beforeLast out length ≤ length := by
  induction length with
  | zero => exact Nat.le_refl _
  | succ length ih =>
    rw [beforeLast]
    split
    · exact Nat.le_succ_of_le ih
    · exact Nat.le_refl _

/-- A null inside a string cuts it. -/
theorem store_zero_cut {i : ℕ} (hi : i ≤ out.length) :
    ∃ behind, (out.take i ++ 0 :: behind).length = (out ++ 0 :: rest).length ∧
      store (out ++ 0 :: rest) i 0 = some (out.take i ++ 0 :: behind) := by
  rcases Nat.lt_or_ge i out.length with hlt | hge
  · refine ⟨out.drop (i + 1) ++ 0 :: rest, ?_, ?_⟩
    · simp
      omega
    · have hsplit : out ++ 0 :: rest = out.take i ++ out[i] :: (out.drop (i + 1) ++ 0 :: rest) := by
        rw [← List.cons_append, ← List.drop_eq_getElem_cons hlt, ← List.append_assoc,
          List.take_append_drop]
      have hat : (out.take i).length = i := by rw [List.length_take, Nat.min_eq_left hi]
      have hstore := store_append (out.take i) (out.drop (i + 1) ++ 0 :: rest) out[i] 0
      rwa [hat, ← hsplit] at hstore
  · obtain rfl := Nat.le_antisymm hi hge
    refine ⟨rest, by rw [List.take_length], ?_⟩
    rw [store_append, List.take_length]

/-- **Going up** in a buffer. -/
theorem removeLastBuffer_eq (hout : 0 ∉ out) (rest : List UInt8) :
    ∃ behind, (removeLastComponent out ++ 0 :: behind).length = (out ++ 0 :: rest).length ∧
      removeLastBuffer (out ++ 0 :: rest) = some (removeLastComponent out ++ 0 :: behind) := by
  have hle := beforeLast_le out out.length
  rw [removeLastBuffer, stringLength_eq hout, Option.bind_eq_bind, Option.bind_some,
    beforeLastBuffer_eq _ (Nat.le_refl _), Option.bind_some, removeLastComponent]
  refine store_zero_cut ?_
  split <;> omega

/-- **Appending a component** in a buffer. -/
theorem appendComponentBuffer_gives (hout : 0 ∉ out) (component : List UInt8)
    (hlength : (out ++ 0 :: rest).length = capacity) :
    Gives capacity (appendComponent out capacity component)
      (appendComponentBuffer (out ++ 0 :: rest) component) := by
  rw [appendComponentBuffer, appendComponent, stringLength_eq hout, Option.bind_eq_bind,
    Option.bind_some]
  by_cases hone : out.length = 1
  · rw [if_pos hone, if_pos hone]
    exact appendBuffer_gives hout component hlength
  · rw [if_neg hone, if_neg hone]
    obtain ⟨ok, buffer, hcall, hbuffer, hresult⟩ := appendBuffer_gives hout [slash] hlength
    rw [hcall, Option.bind_eq_bind, Option.bind_some]
    cases happend : append capacity out [slash] with
    | none =>
      rw [happend] at hresult
      obtain rfl : ok = false := hresult
      exact gives_none hbuffer
    | some longer =>
      rw [happend] at hresult
      obtain ⟨rfl, behind, rfl⟩ := hresult
      have hlonger : longer = out ++ [slash] := by
        rw [append] at happend
        split at happend
        · cases happend
        · exact (Option.some.inj happend).symm
      have hzero : 0 ∉ longer := by
        rw [hlonger, List.mem_append, not_or]
        exact ⟨hout, by decide⟩
      exact appendBuffer_gives hzero component hbuffer

/-! ## The loop over the components -/

theorem skipSeparators_eq (before rest : List UInt8) :
    skipSeparators (before ++ rest) before.length =
      some (before ++ rest.takeWhile isSeparator).length := by
  rw [skipSeparators, List.append_assoc, scan_takeWhile before rest rfl [], List.length_append]

/-- A component is copied to its buffer, when there is room for it and a null. -/
theorem takeComponent_eq (before done : List UInt8) {word tail hole : List UInt8}
    (hword : ∀ c ∈ word, c ≠ 0 ∧ isSeparator c = false)
    (htail : ∀ c ∈ tail.head?, isSeparator c = true) (hhole : 0 < hole.length)
    (hfuel : word.length < fuel) :
    if word.length + 1 > hole.length then
      takeComponent (before ++ (done ++ (word ++ tail))) before.length fuel done.length
        (done ++ hole) = some none
    else ∃ behind,
      takeComponent (before ++ (done ++ (word ++ tail))) before.length fuel done.length
        (done ++ hole) = some (some ((done ++ word).length, done ++ word ++ 0 :: behind)) := by
  induction word generalizing done hole fuel with
  | nil =>
    obtain ⟨fuel, rfl⟩ := Nat.exists_eq_succ_of_ne_zero (Nat.ne_of_gt hfuel)
    obtain ⟨old, hole, rfl⟩ := List.exists_cons_of_length_pos hhole
    rw [if_neg (by rw [List.length_nil, List.length_cons]; omega)]
    refine ⟨hole, ?_⟩
    -- the component ends at a separator or at the terminating null
    have hend : ∃ byte, byteAt (before ++ (done ++ ([] ++ tail))) (before.length + done.length) =
        some byte ∧ ¬(byte ≠ 0 ∧ isSeparator byte = false) := by
      rw [List.nil_append, ← List.append_assoc, ← List.length_append]
      cases tail with
      | nil => exact ⟨0, byteAt_end _, fun h => h.1 rfl⟩
      | cons byte tail =>
        exact ⟨byte, byteAt_length _ _ _, fun h => by rw [htail byte rfl] at h; cases h.2⟩
    obtain ⟨byte, hbyte, hstop⟩ := hend
    rw [takeComponent, hbyte, Option.bind_eq_bind, Option.bind_some, if_neg hstop, store_append,
      List.append_nil]
    rfl
  | cons byte word ih =>
    obtain ⟨fuel, rfl⟩ := Nat.exists_eq_succ_of_ne_zero (Nat.ne_of_gt (Nat.zero_lt_of_lt hfuel))
    obtain ⟨old, hole, rfl⟩ := List.exists_cons_of_length_pos hhole
    obtain ⟨hbyte, hword⟩ := List.forall_mem_cons.mp hword
    have hat : byteAt (before ++ (done ++ (byte :: word ++ tail))) (before.length + done.length) =
        some byte := by
      rw [← List.append_assoc, ← List.length_append, List.cons_append]
      exact byteAt_length _ _ _
    have hstep : takeComponent (before ++ (done ++ (byte :: word ++ tail))) before.length (fuel + 1)
        done.length (done ++ old :: hole) =
          if done.length + 1 ≥ (done ++ old :: hole).length then some none
          else takeComponent (before ++ ((done ++ [byte]) ++ (word ++ tail))) before.length fuel
            (done ++ [byte]).length ((done ++ [byte]) ++ hole) := by
      have hdone : (done ++ [byte]).length = done.length + 1 := by simp
      rw [takeComponent, hat, Option.bind_eq_bind, Option.bind_some, if_pos hbyte, store_append,
        hdone]
      simp only [List.append_assoc, List.cons_append, List.nil_append, Option.bind_eq_bind,
        Option.bind_some]
    rw [hstep]
    have hlength : (done ++ old :: hole).length = done.length + (hole.length + 1) := by simp
    rw [List.length_cons, List.length_cons]
    by_cases hroom : done.length + 1 ≥ (done ++ old :: hole).length
    · rw [if_pos hroom, if_pos (by omega)]
    · rw [if_neg hroom]
      have hpos : 0 < hole.length := by omega
      have hnext := ih (done ++ [byte]) hword hpos (Nat.lt_of_succ_lt_succ hfuel)
      by_cases hfits : word.length + 1 > hole.length
      · rw [if_pos hfits] at hnext
        rw [if_pos (by omega)]
        exact hnext
      · rw [if_neg hfits] at hnext
        rw [if_neg (by omega)]
        simpa only [List.append_assoc, List.singleton_append] using hnext

/-- One component of `normalize` that fits its buffer. -/
theorem applyComponent_gives (hout : 0 ∉ out) {component : List UInt8}
    (hcomponent : component.length + 1 ≤ maxComponent)
    (hlength : (out ++ 0 :: rest).length = capacity) :
    Gives capacity (normalizeStep capacity out component)
      (applyComponent (out ++ 0 :: rest) component) := by
  rw [applyComponent, normalizeStep, if_neg (Nat.not_lt.mpr hcomponent)]
  split
  · exact gives_some hlength
  split
  · obtain ⟨behind, hbehind, hremove⟩ := removeLastBuffer_eq hout rest
    rw [hremove, Option.bind_eq_bind, Option.bind_some]
    exact gives_some (hbehind.trans hlength)
  · exact appendComponentBuffer_gives hout component hlength

/-- A path without nulls stays one. -/
theorem zero_notMem_normalizeStep {component out' : List UInt8} (hout : 0 ∉ out)
    (hcomponent : 0 ∉ component) (hstep : normalizeStep capacity out component = some out') :
    0 ∉ out' := by
  have happend : ∀ {left right joined : List UInt8}, 0 ∉ left → 0 ∉ right →
      append capacity left right = some joined → 0 ∉ joined := by
    intro left right joined hleft hright hjoin
    rw [append] at hjoin
    split at hjoin
    · cases hjoin
    · obtain rfl := Option.some.inj hjoin
      rw [List.mem_append, not_or]
      exact ⟨hleft, hright⟩
  rw [normalizeStep] at hstep
  split at hstep
  · cases hstep
  split at hstep
  · exact Option.some.inj hstep ▸ hout
  split at hstep
  · exact Option.some.inj hstep ▸ fun hzero => hout (List.take_subset _ _ hzero)
  rw [appendComponent] at hstep
  split at hstep
  · exact happend hout hcomponent hstep
  split at hstep
  · cases hstep
  · next buffer hslash => exact happend (happend hout (by decide) hslash) hcomponent hstep

/-- What a cursor at the beginning of a word finds: the word, and a separator or nothing behind. -/
structure Word (rest word left : List UInt8) : Prop where
  split : rest = word ++ left
  length : word ≠ []
  plain : ∀ c ∈ word, c ≠ 0 ∧ isSeparator c = false
  behind : ∀ c ∈ left.head?, isSeparator c = true
  zero : 0 ∉ left

theorem word_takeWhile {next : UInt8} (hsep : isSeparator next = false) (hzero : 0 ∉ next :: rest) :
    Word (next :: rest) ((next :: rest).takeWhile fun c => !isSeparator c)
      ((next :: rest).dropWhile fun c => !isSeparator c) where
  split := List.takeWhile_append_dropWhile.symm
  length := by
    rw [List.takeWhile_cons_of_pos (by rw [hsep]; rfl)]
    exact List.cons_ne_nil _ _
  plain c hc := by
    refine ⟨fun heq => hzero (heq ▸ (List.takeWhile_prefix _).subset hc), ?_⟩
    simpa using List.all_eq_true.mp List.all_takeWhile c hc
  behind c hc := by
    obtain ⟨more, hmore⟩ := List.head?_eq_some_iff.mp hc
    simpa using head_dropWhile hmore
  zero hmem := hzero ((List.dropWhile_suffix _).subset hmem)

/-- The component at the cursor in its buffer, when it fits. -/
theorem takeComponent_word (hscratch : scratch.length = maxComponent) (passed : List UInt8)
    {word left : List UInt8} (h : Word rest word left) :
    (word.length + 1 > maxComponent ∧
        takeComponent (passed ++ rest) passed.length ((passed ++ rest).length + 1) 0 scratch =
          some none) ∨
      word.length + 1 ≤ maxComponent ∧ ∃ component,
        takeComponent (passed ++ rest) passed.length ((passed ++ rest).length + 1) 0 scratch =
          some (some (word.length, component)) ∧ cstring component = word := by
  have hpos : 0 < scratch.length := by
    rw [hscratch]
    decide
  have hfuel : word.length < (passed ++ rest).length + 1 := by
    rw [h.split, List.length_append, List.length_append]
    omega
  have hcopy := takeComponent_eq passed [] h.plain h.behind hpos hfuel
  rw [hscratch, ← h.split, List.nil_append, List.nil_append, List.nil_append, List.length_nil]
    at hcopy
  by_cases hfits : word.length + 1 > maxComponent
  · rw [if_pos hfits] at hcopy
    exact .inl ⟨hfits, hcopy⟩
  · rw [if_neg hfits] at hcopy
    obtain ⟨behind, hcopy⟩ := hcopy
    exact .inr ⟨Nat.not_lt.mp hfits, _, hcopy,
      cstring_append (fun hzero => (h.plain 0 hzero).1 rfl) _⟩

/-- One round of the loop skips the separators and then does what the component says. -/
theorem normalizeSteps_round (scratch before : List UInt8) (hrest : 0 ∉ rest) (fuel : ℕ)
    (buffer : List UInt8) :
    normalizeSteps (before ++ rest) scratch (fuel + 1) before.length buffer =
      if rest.dropWhile isSeparator = [] then some (true, buffer)
      else
        (takeComponent (before ++ rest) (before ++ rest.takeWhile isSeparator).length
          ((before ++ rest).length + 1) 0 scratch).bind fun
          | none => some (false, buffer)
          | some (length, component) =>
            (applyComponent buffer (cstring component)).bind fun
              | (false, buffer) => some (false, buffer)
              | (true, buffer) => normalizeSteps (before ++ rest) scratch fuel
                  ((before ++ rest.takeWhile isSeparator).length + length) buffer := by
  cases hcursor : rest with
  | nil =>
    rw [normalizeSteps, byteAt_end]
    rfl
  | cons first tail =>
    have hfirst : first ≠ 0 := fun heq => hrest (by rw [hcursor, heq]; exact List.mem_cons_self)
    have hstart : byteAt (before ++ rest) before.length = some first := by
      rw [hcursor]
      exact byteAt_length _ _ _
    have hskip := skipSeparators_eq before rest
    have hpath : before ++ rest =
        (before ++ rest.takeWhile isSeparator) ++ rest.dropWhile isSeparator := by
      rw [List.append_assoc, List.takeWhile_append_dropWhile]
    rw [← hcursor, normalizeSteps]
    simp only [hstart, hskip, Option.bind_eq_bind, Option.bind_some, if_neg hfirst]
    -- only separators are left, or a component begins
    cases hnext : rest.dropWhile isSeparator with
    | nil =>
      have hend : byteAt (before ++ rest) (before ++ rest.takeWhile isSeparator).length =
          some 0 := by
        rw [hpath, hnext]
        exact byteAt_end _
      rw [hend, Option.bind_some, if_pos rfl, if_pos rfl]
    | cons next left =>
      have hne : next ≠ 0 := fun heq => hrest ((List.dropWhile_suffix _).subset
        (show (0 : UInt8) ∈ rest.dropWhile isSeparator by
          rw [hnext, heq]
          exact List.mem_cons_self))
      have hbyte : byteAt (before ++ rest) (before ++ rest.takeWhile isSeparator).length =
          some next := by
        conv_lhs => rw [hpath, hnext]
        exact byteAt_length _ _ _
      rw [hbyte, Option.bind_some, if_neg hne, if_neg (List.cons_ne_nil _ _)]

/-- **The loop** over the components does what the cursor of `Vfs.Path` does. -/
theorem normalizeSteps_gives (hscratch : scratch.length = maxComponent) (before : List UInt8)
    (hrest : 0 ∉ rest) (hfuel : rest.length ≤ fuel) {behind : List UInt8} (hout : 0 ∉ out)
    (hlength : (out ++ 0 :: behind).length = capacity) :
    Gives capacity (eachWord isSeparator (normalizeStep capacity) fuel rest out)
      (normalizeSteps (before ++ rest) scratch (fuel + 1) before.length (out ++ 0 :: behind)) := by
  induction fuel generalizing before rest out behind with
  | zero =>
    obtain rfl := List.length_eq_zero_iff.mp (Nat.le_zero.mp hfuel)
    rw [normalizeSteps, byteAt_end]
    exact gives_some hlength
  | succ fuel ih =>
    rw [normalizeSteps_round scratch before hrest, eachWord]
    have hpath : before ++ rest =
        (before ++ rest.takeWhile isSeparator) ++ rest.dropWhile isSeparator := by
      rw [List.append_assoc, List.takeWhile_append_dropWhile]
    rw [hpath]
    generalize before ++ rest.takeWhile isSeparator = passed
    cases hnext : rest.dropWhile isSeparator with
    | nil =>
      rw [if_pos rfl]
      exact gives_some hlength
    | cons next rest' =>
      have hsuffix := List.dropWhile_suffix isSeparator (l := rest)
      rw [hnext] at hsuffix
      have hword := word_takeWhile (head_dropWhile hnext) fun hzero =>
        hrest (hsuffix.subset hzero)
      have hshort : (next :: rest').length ≤ fuel + 1 := Nat.le_trans hsuffix.length_le hfuel
      rw [if_neg (List.cons_ne_nil _ _)]
      dsimp only
      generalize (next :: rest').takeWhile (fun c => !isSeparator c) = word at hword ⊢
      generalize (next :: rest').dropWhile (fun c => !isSeparator c) = left at hword ⊢
      -- the word is not empty, so less than before is left
      have hleft : left.length ≤ fuel := by
        have := List.length_pos_iff.mpr hword.length
        rw [hword.split, List.length_append] at hshort
        omega
      rcases takeComponent_word hscratch passed hword with
        ⟨hlong, hcopy⟩ | ⟨hfits, component, hcopy, hcomponent⟩
      · rw [hcopy, Option.bind_some, normalizeStep, if_pos hlong]
        exact gives_none hlength
      · obtain ⟨ok, buffer, hcall, hbuffer, hresult⟩ := applyComponent_gives hout hfits hlength
        rw [hcopy, Option.bind_some]
        dsimp only
        rw [hcomponent, hcall, Option.bind_some]
        cases hstep : normalizeStep capacity out word with
        | none =>
          rw [hstep] at hresult
          obtain rfl : ok = false := hresult
          exact gives_none hbuffer
        | some out' =>
          rw [hstep] at hresult
          obtain ⟨rfl, behind', rfl⟩ := hresult
          have hzero := zero_notMem_normalizeStep hout (fun h => (hword.plain 0 h).1 rfl) hstep
          have hloop := ih (passed ++ word) hword.zero hleft hzero hbuffer
          rw [List.append_assoc, List.length_append, ← hword.split] at hloop
          exact hloop

/-- **`normalize` on a buffer**: no access is outside, and the result is that of `normalize`. -/
theorem normalizeBuffer_gives (hpath : 0 ∉ path) {base : Option (List UInt8)}
    (hbase : ∀ above ∈ base, 0 ∉ above) (hscratch : scratch.length = maxComponent)
    (buffer : List UInt8) :
    Gives buffer.length (normalize path base buffer.length)
      (normalizeBuffer path base scratch buffer) := by
  rw [normalizeBuffer, normalize]
  -- the text that is copied first, `/` or the base, has no null
  have hstart : 0 ∉ (if path.head? = some slash ∨ base.getD [] = [] then [slash]
      else base.getD []) := by
    split
    · decide
    · cases base with
      | none => exact List.not_mem_nil
      | some above => exact hbase above rfl
  generalize (if path.head? = some slash ∨ base.getD [] = [] then [slash] else base.getD []) =
    start at hstart ⊢
  obtain ⟨ok, buffer', hcall, hlength, hresult⟩ := copyBuffer_gives buffer start
  by_cases hempty : buffer.length = 0
  · rw [if_pos hempty, hempty, copy, if_pos (Nat.succ_pos _)]
    exact gives_none hempty
  · rw [if_neg hempty, hcall, Option.bind_eq_bind, Option.bind_some]
    cases hcopy : copy buffer.length start with
    | none =>
      rw [hcopy] at hresult
      obtain rfl : ok = false := hresult
      exact gives_none hlength
    | some copied =>
      rw [hcopy] at hresult
      obtain ⟨rfl, behind, rfl⟩ := hresult
      have hcopied : copied = start := by
        rw [copy] at hcopy
        split at hcopy
        · cases hcopy
        · exact (Option.some.inj hcopy).symm
      exact normalizeSteps_gives hscratch [] hpath (Nat.le_refl _) (hcopied ▸ hstart) hlength

/-! ## Canonical paths as strings -/

/-- A canonical absolute path: the root, or a separator before each component, none of which is
empty, `.` or `..`. -/
def IsCanonicalPath (path : List UInt8) : Prop :=
  path = [slash] ∨ ∃ rest, path = slash :: rest ∧
    ∀ component ∈ rest.splitOnP isSeparator,
      component ≠ [] ∧ component ≠ dot ∧ component ≠ dotDot

/-- The components between separators, with a separator before each, are the string again. -/
theorem flatMap_splitOnP (rest : List UInt8) :
    (rest.splitOnP isSeparator).flatMap (slash :: ·) = slash :: rest := by
  induction rest with
  | nil => rw [List.splitOnP_nil]; rfl
  | cons c rest ih =>
    rw [List.splitOnP_cons_eq_if_modifyHead]
    cases hc : isSeparator c with
    | true =>
      obtain rfl : c = slash := eq_of_beq hc
      rw [if_pos rfl, List.flatMap_cons, ih]
      rfl
    | false =>
      rw [if_neg Bool.false_ne_true]
      cases hsplit : rest.splitOnP isSeparator with
      | nil => exact absurd hsplit (List.splitOnP_ne_nil _ _)
      | cons first others =>
        rw [hsplit, List.flatMap_cons, List.cons_append, List.cons.injEq] at ih
        rw [List.modifyHead_cons, List.flatMap_cons, List.cons_append, List.cons_append, ih.2]

theorem splitOnP_names {name : List UInt8} (h : Plain (name :: names)) :
    (name ++ names.flatMap (slash :: ·)).splitOnP isSeparator = name :: names := by
  induction names generalizing name with
  | nil =>
    rw [List.flatMap_nil, List.append_nil]
    exact List.splitOnP_eq_singleton (h name List.mem_cons_self).separator
  | cons next names ih =>
    obtain ⟨hname, hnames⟩ := List.forall_mem_cons.mp h
    rw [List.flatMap_cons, List.cons_append, List.splitOnP_append_cons _ _ isSeparator_slash,
      ih hnames, List.splitOnP_eq_singleton hname.separator]
    rfl

/-- **The canonical paths** are the paths of components that stand for themselves. -/
theorem isCanonicalPath_iff :
    IsCanonicalPath path ↔ Plain (words isSeparator path) ∧
      path = render (words isSeparator path) := by
  constructor
  · rintro (rfl | ⟨rest, rfl, hrest⟩)
    · exact ⟨canonical_nil.plain, rfl⟩
    · have hplain : Plain (rest.splitOnP isSeparator) := fun name hname =>
        ⟨(hrest name hname).1, fun c hc => (forall_mem_splitOnP rest name hname c hc).1,
          (hrest name hname).2.1, (hrest name hname).2.2⟩
      have hpath : slash :: rest = render (rest.splitOnP isSeparator) := by
        rw [render_of_ne_nil (List.splitOnP_ne_nil _ _), flatMap_splitOnP]
      rw [hpath, words_render hplain]
      exact ⟨hplain, rfl⟩
  · rintro ⟨hplain, hpath⟩
    cases hwords : words isSeparator path with
    | nil =>
      rw [hwords] at hpath
      exact .inl hpath
    | cons name names =>
      rw [hwords] at hplain hpath
      refine .inr ⟨name ++ names.flatMap (slash :: ·), ?_, fun component hcomponent => ?_⟩
      · rw [hpath, render, List.flatMap_cons, List.cons_append]
      · rw [splitOnP_names hplain] at hcomponent
        have h := hplain component hcomponent
        exact ⟨h.ne_nil, h.ne_dot, h.ne_dotDot⟩

theorem isCanonicalPath_render (h : Plain names) : IsCanonicalPath (render names) := by
  rw [isCanonicalPath_iff, words_render h]
  exact ⟨h, rfl⟩

/-! ## When `normalize` fails -/

/-- The path after the first `k` components. -/
def stackAfter (components names : List (List UInt8)) (k : ℕ) : List (List UInt8) :=
  (components.take k).foldl resolveStep names

/-- One component fails when it is too long, or when the path does not fit any more. -/
theorem namesStep_eq_none_iff (h : Plain names) (hfits : (render names).length + 1 ≤ capacity)
    (component : List UInt8) :
    namesStep capacity names component = none ↔
      maxNameLength < component.length ∨
        capacity < (render (resolveStep names component)).length + 1 := by
  have hup := length_render_dropLast h
  rw [namesStep, resolveStep]
  by_cases hlong : component.length + 1 > maxComponent
  · rw [if_pos hlong]
    exact iff_of_true rfl (.inl (Nat.lt_of_succ_lt_succ hlong))
  have hshort : ¬maxNameLength < component.length := fun hlt => hlong (Nat.succ_lt_succ hlt)
  rw [if_neg hlong, or_iff_right hshort]
  split
  · exact iff_of_false (Option.some_ne_none _) (by omega)
  split
  · exact iff_of_false (Option.some_ne_none _) (by omega)
  split
  · next hfull => exact iff_of_true rfl hfull
  · next hroom => exact iff_of_false (Option.some_ne_none _) hroom

/-- **The components fail** when one of them is too long, or a path on the way does not fit. -/
theorem foldlM_namesStep_eq_none_iff {components : List (List UInt8)}
    (hcomponents : ∀ component ∈ components, IsWord component) (h : Plain names)
    (hfits : (render names).length + 1 ≤ capacity) :
    components.foldlM (namesStep capacity) names = none ↔
      (∃ component ∈ components, maxNameLength < component.length) ∨
        ∃ k ≤ components.length,
          capacity < (render (stackAfter components names k)).length + 1 := by
  induction components generalizing names with
  | nil =>
    refine iff_of_false (Option.some_ne_none _) ?_
    rintro (⟨_, hmem, -⟩ | ⟨k, -, hfull⟩)
    · exact absurd hmem List.not_mem_nil
    · rw [stackAfter, List.take_nil] at hfull
      exact Nat.not_lt.mpr hfits hfull
  | cons component components ih =>
    obtain ⟨hcomponent, hrest⟩ := List.forall_mem_cons.mp hcomponents
    have hfirst := namesStep_eq_none_iff h hfits component
    rw [List.foldlM_cons]
    cases hstep : namesStep capacity names component with
    | none =>
      refine iff_of_true rfl ((hfirst.mp hstep).imp ?_ ?_)
      · exact fun hlong => ⟨component, List.mem_cons_self, hlong⟩
      · exact fun hfull => ⟨1, Nat.succ_le_succ (Nat.zero_le _), hfull⟩
    | some next =>
      have hnextFits := namesStep_fits h hfits hstep
      obtain ⟨hnext, -, rfl⟩ := namesStep_eq_some h hcomponent hstep
      -- this component is not what fails, so it is a later one
      have hgood := hfirst.not.mp (by rw [hstep]; exact Option.some_ne_none _)
      rw [not_or] at hgood
      refine (ih hrest hnext hnextFits).trans (or_congr ?_ ?_)
      · constructor
        · rintro ⟨long, hmem, hlong⟩
          exact ⟨long, List.mem_cons_of_mem _ hmem, hlong⟩
        · rintro ⟨long, hmem, hlong⟩
          rcases List.mem_cons.mp hmem with rfl | hmem
          · exact absurd hlong hgood.1
          · exact ⟨long, hmem, hlong⟩
      · constructor
        · rintro ⟨k, hk, hfull⟩
          exact ⟨k + 1, Nat.succ_le_succ hk, hfull⟩
        · rintro ⟨k, hk, hfull⟩
          cases k with
          | zero => exact absurd hfull (Nat.not_lt.mpr hfits)
          | succ k => exact ⟨k, Nat.le_of_succ_le_succ hk, hfull⟩

/-- An empty base is none, and any other canonical base is the path of its components. -/
theorem normalize_base {base : Option (List UInt8)}
    (hbase : ∀ above ∈ base, above = [] ∨ IsCanonicalPath above) (path : List UInt8)
    (capacity : ℕ) :
    ∃ names : Option (List (List UInt8)), (∀ other ∈ names, Plain other) ∧
      names.getD [] = words isSeparator (base.getD []) ∧
      normalize path base capacity = normalize path (names.map render) capacity := by
  cases base with
  | none => exact ⟨none, fun _ hother => (nomatch hother), rfl, rfl⟩
  | some above =>
    rcases hbase above rfl with rfl | hcanonical
    · exact ⟨none, fun _ hother => (nomatch hother), rfl, rfl⟩
    · obtain ⟨hplain, hrender⟩ := isCanonicalPath_iff.mp hcanonical
      refine ⟨some (words isSeparator above), fun other hother => ?_, rfl, ?_⟩
      · exact Option.some.inj hother ▸ hplain
      · rw [Option.map_some, ← hrender]

/-- What is on the stack comes from where it started or from the path. -/
theorem mem_foldl_resolveStep {name : List UInt8} {components : List (List UInt8)}
    (h : name ∈ components.foldl resolveStep names) : name ∈ names ∨ name ∈ components := by
  induction components generalizing names with
  | nil => exact .inl h
  | cons component components ih =>
    rcases ih h with hname | hname
    · rw [resolveStep] at hname
      split at hname
      · exact .inl hname
      split at hname
      · exact .inl (List.dropLast_subset _ hname)
      · rcases List.mem_append.mp hname with hname | hname
        · exact .inl hname
        · exact .inr (List.mem_singleton.mp hname ▸ List.mem_cons_self)
    · exact .inr (List.mem_cons_of_mem _ hname)

theorem zero_notMem_render (h : ∀ name ∈ names, 0 ∉ name) : 0 ∉ render names := by
  cases names with
  | nil => decide
  | cons name names =>
    rw [render, List.mem_flatMap]
    rintro ⟨other, hother, hzero⟩
    rcases List.mem_cons.mp hzero with hzero | hzero
    · exact absurd hzero (by decide)
    · exact h other hother hzero

/-- An absolute path ignores its base. -/
theorem normalize_absolute (hpath : path.head? = some slash) (base : Option (List UInt8))
    (capacity : ℕ) : normalize path base capacity = normalize path none capacity := by
  rw [normalize, normalize, if_pos (Or.inl hpath), if_pos (Or.inl hpath)]

/-- **What `normalize` leaves, and when it fails.** For every path, every canonical base or none,
and every buffer: no access is outside of a buffer; when the call succeeds the buffer holds a
canonical path, that of the components of the path on the stack of those of the base, and if these
fit a component's buffer then normalizing once more changes nothing; and the call fails just when
the path it starts from does not fit, a component is longer than 255 bytes, or a path on the way
does not fit. -/
theorem normalizeBuffer_canonical {path : List UInt8} (hpath : 0 ∉ path)
    {base : Option (List UInt8)}
    (hbase : ∀ above ∈ base, 0 ∉ above ∧ (above = [] ∨ IsCanonicalPath above))
    {scratch : List UInt8} (hscratch : scratch.length = maxComponent) (buffer : List UInt8) :
    let directory := words isSeparator (base.getD [])
    let start := startNames path (some directory)
    ∃ ok result, normalizeBuffer path base scratch buffer = some (ok, result) ∧
      result.length = buffer.length ∧
      (ok = true → IsCanonicalPath (cstring result) ∧
        cstring result = render (resolve path directory) ∧
        ((∀ name ∈ directory, name.length ≤ maxNameLength) →
          ∀ base' again, (∀ above ∈ base', 0 ∉ above) → again.length = buffer.length →
            ∃ result', normalizeBuffer (cstring result) base' scratch again =
              some (true, result') ∧ cstring result' = cstring result)) ∧
      (ok = false ↔ buffer.length < (render start).length + 1 ∨
        (∃ component ∈ words isSeparator path, maxNameLength < component.length) ∨
        ∃ k ≤ (words isSeparator path).length,
          buffer.length < (render (stackAfter (words isSeparator path) start k)).length + 1) := by
  intro directory start
  obtain ⟨names, hnames, hdirectory, hsame⟩ :=
    normalize_base (fun above h => (hbase above h).2) path buffer.length
  have hstart : startNames path names = start := by
    rw [startNames, hdirectory]
    rfl
  have hplain : Plain start := hstart ▸ startNames_of canonical_nil.plain hnames
  obtain ⟨ok, result, hcall, hlength, hresult⟩ :=
    normalizeBuffer_gives hpath (fun above h => (hbase above h).1) hscratch buffer
  rw [hsame, normalize_eq hnames, hstart] at hresult
  refine ⟨ok, result, hcall, hlength, ?_⟩
  by_cases hfits : (render start).length + 1 > buffer.length
  · rw [if_pos hfits] at hresult
    obtain rfl : ok = false := hresult
    exact ⟨fun h => (by cases h), iff_of_true rfl (.inl hfits)⟩
  rw [if_neg hfits] at hresult
  have hwords : ∀ component ∈ words isSeparator path, IsWord component :=
    fun _ hc => mem_words hc
  have hnone := foldlM_namesStep_eq_none_iff hwords hplain (Nat.not_lt.mp hfits)
  cases hfold : (words isSeparator path).foldlM (namesStep buffer.length) start with
  | none =>
    rw [hfold] at hresult
    obtain rfl : ok = false := hresult
    exact ⟨fun h => (by cases h), iff_of_true rfl (.inr (hnone.mp hfold))⟩
  | some final =>
    rw [hfold] at hresult
    obtain ⟨rfl, rest, rfl⟩ := hresult
    obtain ⟨hfinal, hcanonical, hroom, hmeaning⟩ :=
      foldlM_namesStep hwords hplain (Nat.not_lt.mp hfits) hfold
    -- names come from the path or from the base, and neither has a null
    have hfrom : ∀ name ∈ start, name ∈ directory := by
      intro name hname
      rw [show start = startNames path (some directory) from rfl, startNames] at hname
      split at hname
      · exact absurd hname List.not_mem_nil
      · exact hname
    have hbytes : 0 ∉ base.getD [] := by
      cases base with
      | none => exact List.not_mem_nil
      | some above => exact (hbase above rfl).1
    have hzero : 0 ∉ render final := by
      refine zero_notMem_render fun name hname hmem => ?_
      rcases mem_foldl_resolveStep (hmeaning ▸ hname) with hname | hname
      · exact hbytes (subset_of_mem_words (hfrom name hname) hmem)
      · exact hpath (subset_of_mem_words hname hmem)
    rw [cstring_append hzero]
    refine ⟨fun _ => ⟨isCanonicalPath_render hfinal, ?_,
      fun hshort base' again hbase' hagain => ?_⟩,
      iff_of_false Bool.noConfusion ?_⟩
    · rw [hmeaning]
      rfl
    · have hnames : Canonical final := hcanonical fun name hname =>
        ⟨hplain name hname, hshort name (hfrom name hname)⟩
      obtain ⟨ok', result', hcall', -, hresult'⟩ :=
        normalizeBuffer_gives hzero hbase' hscratch again
      rw [normalize_absolute (head_render final), hagain, normalize_render hnames hroom] at hresult'
      obtain ⟨rfl, rest', rfl⟩ := hresult'
      exact ⟨_, hcall', cstring_append hzero _⟩
    · rintro (hfull | hbad)
      · exact hfits hfull
      · rw [← hnone, hfold] at hbad
        exact Option.some_ne_none _ hbad

/-- A path taken from a directory, with a component, `.`, `..` and separators in a row. -/
theorem normalizeBuffer_canonical_up :
    let result := [0x2F, 0x61, 0x2F, 0x64, 0]
    normalizeBuffer [0x2E, 0x2E, 0x2F, 0x2F, 0x2E, 0x2F, 0x64] (some [0x2F, 0x61, 0x2F, 0x62])
        (List.replicate maxComponent 1) (List.replicate 5 1) = some (true, result) ∧
      IsCanonicalPath (cstring result) := by
  have hcall : normalizeBuffer [0x2E, 0x2E, 0x2F, 0x2F, 0x2E, 0x2F, 0x64]
      (some [0x2F, 0x61, 0x2F, 0x62]) (List.replicate maxComponent 1) (List.replicate 5 1) =
        some (true, [0x2F, 0x61, 0x2F, 0x64, 0]) := by decide +kernel
  have hbase : IsCanonicalPath [0x2F, 0x61, 0x2F, 0x62] :=
    .inr ⟨[0x61, 0x2F, 0x62], rfl, by decide +kernel⟩
  obtain ⟨ok, result, hsame, -, hgood, -⟩ := @normalizeBuffer_canonical
    [0x2E, 0x2E, 0x2F, 0x2F, 0x2E, 0x2F, 0x64] (by decide) (some [0x2F, 0x61, 0x2F, 0x62])
    (fun above h => Option.some.inj h ▸ ⟨by decide, .inr hbase⟩) (List.replicate maxComponent 1)
    List.length_replicate (List.replicate 5 1)
  obtain ⟨rfl, rfl⟩ := Prod.mk.inj (Option.some.inj (hsame.symm.trans hcall))
  exact ⟨hcall, (hgood rfl).1⟩

/-! ### A base with a long component -/

/-- A canonical base whose only component has 256 bytes. -/
def longBase : List UInt8 := slash :: List.replicate 256 0x61

set_option maxRecDepth 8000 in
/-- **A normal form that is not normalized again**: the component of the base is taken over without
a look at its length, and is then too long for the buffer of a component. -/
theorem normalize_notAgain :
    IsCanonicalPath longBase ∧
      ∃ result, normalizeBuffer [0x62] (some longBase) (List.replicate maxComponent 0)
          (List.replicate 512 0) = some (true, result) ∧
        ∃ result', normalizeBuffer (cstring result) none (List.replicate maxComponent 0)
          (List.replicate 512 0) = some (false, result') := by
  have hfirst : normalize [0x62] (some longBase) 512 = some (longBase ++ [slash, 0x62]) := by
    decide +kernel
  have hagain : normalize (longBase ++ [slash, 0x62]) none 512 = none := by decide +kernel
  have hzero : 0 ∉ longBase ++ [slash, 0x62] := by
    rw [longBase, List.cons_append, List.mem_cons, List.mem_append, List.mem_replicate]
    decide
  have hscratch : (List.replicate maxComponent (0 : UInt8)).length = maxComponent :=
    List.length_replicate
  refine ⟨.inr ⟨List.replicate 256 0x61, rfl, by decide +kernel⟩, ?_⟩
  obtain ⟨ok, result, hcall, -, hresult⟩ := @normalizeBuffer_gives _ [0x62] (by decide)
    (some longBase) (fun above h => Option.some.inj h ▸ fun hmem =>
      hzero (List.mem_append_left _ hmem)) hscratch (List.replicate 512 0)
  rw [List.length_replicate, hfirst] at hresult
  obtain ⟨rfl, rest, rfl⟩ := hresult
  refine ⟨_, hcall, ?_⟩
  rw [cstring_append hzero]
  obtain ⟨ok, result', hcall', -, hresult'⟩ := @normalizeBuffer_gives _ _ hzero none
    (fun _ h => nomatch h) hscratch (List.replicate 512 0)
  rw [List.length_replicate, hagain] at hresult'
  obtain rfl : ok = false := hresult'
  exact ⟨result', hcall'⟩

end ShirleysOS.Vfs
