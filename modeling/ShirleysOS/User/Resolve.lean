import Mathlib.Data.List.DropRight
import ShirleysOS.Text.StringBuffers
import ShirleysOS.Vfs.Path

/-!
# Paths in init

The shell `init` makes an absolute path of what was typed before it calls the kernel: it joins its
working directory and the input in one buffer and writes the components, one after the other, to
another. The kernel normalizes that path again. Every access is to an index of a buffer, and one
that is outside of it makes the call `none`. Source: `user/init/main.c`.
-/

namespace ShirleysOS.User.Init

open Lib
open Text
open Vfs (IsWord slash dot dotDot isSeparator render Canonical IsName)

/-- `PATH_MAX`, the size of the buffers. -/
abbrev pathMax : ℕ := 512

/-! ## The call -/

/-- The loop of `copy`, and of `resolve` for the input: what is `used` of a buffer and the buffer,
after the bytes of a string from `i` on. -/
def fill (capacity : ℕ) (input : List UInt8) : ℕ → ℕ → ℕ → List UInt8 → Option (ℕ × List UInt8)
  | fuel, i, used, out => do
    let byte ← byteAt input i
    if byte ≠ 0 ∧ used + 1 < capacity then
      match fuel with
      | 0 => none
      | fuel + 1 => do
        let out ← store out used byte
        fill capacity input fuel (i + 1) (used + 1) out
    else some (used, out)

/-- `copy`. -/
def copy (out : List UInt8) (capacity : ℕ) (source : List UInt8) : Option (List UInt8) :=
  if capacity = 0 then some out
  else do
    let (used, out) ← fill capacity source source.length 0 0 out
    store out used 0

/-- The working directory, with a separator behind it unless it is the root. -/
def directory (cwd joined : List UInt8) : Option (ℕ × List UInt8) := do
  let joined ← copy joined pathMax cwd
  let used ← stringLength joined
  if used > 1 then do
    let joined ← store joined used slash
    some (used + 1, joined)
  else some (used, joined)

/-- The first half of `resolve`: the buffer `joined`. An input that starts with a separator is taken
over twice. -/
def join (cwd input joined : List UInt8) : Option (List UInt8) := do
  let first ← byteAt input 0
  if first ≠ slash then do
    let (used, joined) ← directory cwd joined
    let (used, joined) ← fill pathMax input input.length 0 used joined
    store joined used 0
  else do
    let (_, joined) ← fill pathMax input input.length 0 0 joined
    let (used, joined) ← fill pathMax input input.length 0 0 joined
    store joined used 0

/-- The inner loop for `..`: back to the last separator, or to the first byte. -/
def climb (output : List UInt8) : ℕ → Option ℕ
  | 0 => some 0
  | out + 1 =>
    if out + 1 > 1 then do
      let byte ← output[out]?
      if byte ≠ slash then climb output out else some (out + 1)
    else some (out + 1)

/-- What `..` does to `out`. -/
def up (output : List UInt8) (out : ℕ) : Option ℕ :=
  if out > 1 then climb output (out - 1) else some out

/-- The separator before a name. -/
def separate (output : List UInt8) (out : ℕ) : Option (ℕ × List UInt8) :=
  if out > 1 then do
    let output ← store output out slash
    some (out + 1, output)
  else some (out, output)

/-- The end of `resolve`, with success. -/
def finish (output : List UInt8) (out : ℕ) : Option (Bool × List UInt8) := do
  let output ← store output out 0
  some (true, output)

/-- The second half of `resolve`, from byte `i` of `joined` on: whether it succeeds, and `output`.
The bytes of a component are those that the loop before has read. -/
def components (joined : List UInt8) : ℕ → ℕ → ℕ → List UInt8 → Option (Bool × List UInt8)
  | fuel, i, out, output => do
    let byte ← joined[i]?
    if byte = 0 then finish output out
    else
      match fuel with
      | 0 => none
      | fuel + 1 => do
        let start ← scan isSeparator joined joined.length i
        let i ← scan (fun c => c ≠ 0 && !isSeparator c) joined joined.length start
        let n := i - start
        let component := (joined.drop start).take n
        if n = 0 then finish output out
        else if component = dot then components joined fuel i out output
        else if component = dotDot then do
          let out ← up output out
          components joined fuel i out output
        else do
          let (out, output) ← separate output out
          if out + n ≥ pathMax then some (false, output)
          else do
            let output ← storeAll output out component
            components joined fuel i (out + n) output

/-- `resolve`, with the working directory and what the two buffers hold before. An input that is
null is one that is empty. -/
def resolve (cwd input joined output : List UInt8) : Option (Bool × List UInt8) := do
  let input := if input = [] then dot else input
  let joined ← join cwd input joined
  let output ← store output 0 slash
  components joined joined.length 0 1 output

/-! ## The loops on buffers -/

variable {fuel : ℕ} {input hole cwd joined path name : List UInt8} {names : List (List UInt8)}

theorem fill_eq (before : List UInt8) (hinput : 0 ∉ input) (hfuel : input.length ≤ fuel)
    (written : List UInt8) (hroom : (written ++ input).length < pathMax)
    (hhole : input.length < hole.length) :
    ∃ rest, fill pathMax (before ++ input) fuel before.length written.length (written ++ hole) =
        some ((written ++ input).length, written ++ input ++ rest) ∧
      rest.length + input.length = hole.length := by
  induction input generalizing before fuel written hole with
  | nil =>
    refine ⟨hole, ?_, rfl⟩
    unfold fill
    rw [byteAt_end]
    simp only [Option.bind_eq_bind, Option.bind_some, ne_eq, not_true_eq_false, false_and,
      if_false, List.append_nil]
  | cons byte input ih =>
    rw [List.mem_cons, not_or] at hinput
    obtain ⟨hbyte, hinput⟩ := hinput
    cases fuel with
    | zero => exact absurd hfuel (Nat.not_succ_le_zero _)
    | succ fuel =>
      cases hole with
      | nil => exact absurd hhole (Nat.not_lt_zero _)
      | cons old hole =>
        -- the text fits, so the loop does not stop before its null
        have hmore : byte ≠ 0 ∧ written.length + 1 < pathMax := by
          rw [List.length_append, List.length_cons] at hroom
          exact ⟨Ne.symm hbyte, by omega⟩
        have hsplit : written ++ byte :: input = (written ++ [byte]) ++ input := by
          rw [List.append_assoc, List.singleton_append]
        obtain ⟨rest, hsteps, hrest⟩ := ih (before ++ [byte]) hinput
          (Nat.le_of_succ_le_succ hfuel) (written ++ [byte]) (hsplit ▸ hroom)
          (Nat.lt_of_succ_lt_succ hhole)
        refine ⟨rest, ?_, by rw [List.length_cons, List.length_cons]; omega⟩
        rw [fill, byteAt_length]
        simp only [Option.bind_eq_bind, Option.bind_some]
        rw [if_pos hmore, store_append, Option.bind_some, hsplit, ← hsteps]
        simp only [List.length_append, List.length_singleton, List.append_assoc,
          List.singleton_append]

/-- What `resolve` joins: the working directory, a separator and the input, or an absolute input
alone. -/
def joinedText (cwd input : List UInt8) : List UInt8 :=
  if input.head? = some slash then input
  else if cwd.length > 1 then cwd ++ slash :: input
  else cwd ++ input

/-- The input behind what is written, with room for the null behind it. -/
theorem fill_room (hinput : 0 ∉ input) (written hole : List UInt8)
    (hlength : written.length + hole.length = pathMax)
    (hfits : (written ++ input).length < pathMax) :
    ∃ old rest, fill pathMax input input.length 0 written.length (written ++ hole) =
        some ((written ++ input).length, written ++ input ++ old :: rest) ∧
      (written ++ input ++ old :: rest).length = pathMax := by
  have hroom : input.length < hole.length := by
    rw [List.length_append] at hfits
    omega
  obtain ⟨rest, hfill, hrest⟩ := fill_eq [] hinput (Nat.le_refl _) written hfits hroom
  cases rest with
  | nil =>
    rw [List.length_nil] at hrest
    omega
  | cons old rest =>
    refine ⟨old, rest, hfill, ?_⟩
    rw [List.length_append, List.length_append]
    omega

/-- The working directory is copied, and a separator put behind it. -/
theorem directory_eq (hcwd : 0 ∉ cwd) (hroom : cwd.length < pathMax)
    (hjoined : joined.length = pathMax) :
    ∃ written hole, directory cwd joined = some (written.length, written ++ hole) ∧
      written = cwd ++ (if cwd.length > 1 then [slash] else []) ∧
      written.length + hole.length = pathMax := by
  obtain ⟨old, rest, hfill, hlength⟩ :=
    fill_room hcwd [] joined ((Nat.zero_add _).trans hjoined) hroom
  simp only [List.nil_append, List.length_nil] at hfill hlength
  rw [List.length_append, List.length_cons] at hlength
  rw [directory, copy, if_neg (by decide), hfill]
  simp only [Option.bind_eq_bind, Option.bind_some]
  rw [store_append, Option.bind_some, stringLength_eq hcwd, Option.bind_some]
  by_cases hone : cwd.length > 1
  · refine ⟨cwd ++ [slash], rest, ?_, by rw [if_pos hone], ?_⟩
    · rw [if_pos hone, store_append, Option.bind_some, List.length_append, List.length_singleton,
        List.append_assoc, List.singleton_append]
    · rw [List.length_append, List.length_singleton]
      omega
  · refine ⟨cwd, 0 :: rest, if_neg hone, by rw [if_neg hone, List.append_nil], ?_⟩
    rw [List.length_cons]
    omega

/-- **The two strings are joined** when they fit. -/
theorem join_eq (hcwd : 0 ∉ cwd) (hinput : 0 ∉ input) (hne : input ≠ [])
    (hroom : (joinedText cwd input).length < pathMax) (hjoined : joined.length = pathMax) :
    ∃ rest, join cwd input joined = some (joinedText cwd input ++ 0 :: rest) := by
  obtain ⟨first, hhead⟩ := Option.isSome_iff_exists.mp (List.isSome_head?.mpr hne)
  have hfirst : byteAt input 0 = some first := by
    cases input with
    | nil => exact absurd rfl hne
    | cons byte input => exact hhead
  rw [join, hfirst]
  simp only [Option.bind_eq_bind, Option.bind_some]
  rw [joinedText, hhead] at hroom ⊢
  by_cases hslash : first = slash
  · rw [if_pos (congrArg some hslash)] at hroom ⊢
    rw [if_neg fun h => h hslash]
    obtain ⟨old, rest, hfill, hlength⟩ :=
      fill_room hinput [] joined ((Nat.zero_add _).trans hjoined) hroom
    -- the second time, the buffer holds what the first time has left
    obtain ⟨old', rest', hfill', -⟩ := fill_room hinput [] _ ((Nat.zero_add _).trans hlength) hroom
    refine ⟨rest', ?_⟩
    simp only [List.nil_append, List.length_nil] at hfill hfill'
    rw [hfill, Option.bind_some, hfill', Option.bind_some]
    exact store_append _ _ _ _
  · rw [if_neg fun h => hslash (Option.some.inj h)] at hroom ⊢
    rw [if_pos hslash]
    have hcwdRoom : cwd.length + 1 < pathMax := by
      split at hroom
      · rw [List.length_append, List.length_cons] at hroom
        omega
      · have : (1 : ℕ) + 1 < pathMax := by decide
        omega
    obtain ⟨written, hole, hdirectory, hwritten, hlength⟩ :=
      directory_eq hcwd (Nat.lt_of_succ_lt hcwdRoom) hjoined
    have htext : (if cwd.length > 1 then cwd ++ slash :: input else cwd ++ input) =
        written ++ input := by
      rw [hwritten]
      split
      · rw [List.append_assoc, List.singleton_append]
      · rw [List.append_nil]
    rw [htext] at hroom ⊢
    obtain ⟨old, rest, hfill, -⟩ := fill_room hinput written hole hlength hroom
    refine ⟨rest, ?_⟩
    rw [hdirectory, Option.bind_some, hfill, Option.bind_some]
    exact store_append _ _ _ _

/-- With a working directory of 510 bytes or more, nothing of a relative input is taken over, and
the null goes behind the separator. -/
theorem join_long (hcwd : 0 ∉ cwd) (hlong : pathMax ≤ cwd.length + 2) (hroom : cwd.length < pathMax)
    (hne : input ≠ []) (hrelative : input.head? ≠ some slash) (hjoined : joined.length = pathMax) :
    ∃ hole, join cwd input joined = store (cwd ++ [slash] ++ hole) (cwd.length + 1) 0 ∧
      cwd.length + 1 + hole.length = pathMax := by
  cases input with
  | nil => exact absurd rfl hne
  | cons first input =>
    have hone : cwd.length > 1 := by
      have hmax : pathMax = 512 := rfl
      omega
    obtain ⟨written, hole, hdirectory, hwritten, hlength⟩ := directory_eq hcwd hroom hjoined
    rw [if_pos hone] at hwritten
    have hused : written.length = cwd.length + 1 := by
      rw [hwritten, List.length_append, List.length_singleton]
    have hfill : fill pathMax (first :: input) (first :: input).length 0 written.length
        (written ++ hole) = some (written.length, written ++ hole) := by
      unfold fill
      exact if_neg fun h => absurd h.2 (by omega)
    refine ⟨hole, ?_, by rw [← hused]; exact hlength⟩
    have hfirst : first ≠ slash := fun h => hrelative (congrArg some h)
    rw [join, show byteAt (first :: input) 0 = some first from rfl]
    simp only [Option.bind_eq_bind, Option.bind_some]
    rw [if_pos hfirst, hdirectory, Option.bind_some, hfill, Option.bind_some, hused, hwritten]

/-- **A working directory that fills its buffer** makes the write of the null go behind `joined`,
for every relative input. -/
theorem join_outside (hcwd : 0 ∉ cwd) (hlength : cwd.length = 511) (hne : input ≠ [])
    (hrelative : input.head? ≠ some slash) (hjoined : joined.length = pathMax) :
    join cwd input joined = none := by
  have hmax : pathMax = 512 := rfl
  obtain ⟨hole, hjoin, hhole⟩ := join_long hcwd (by omega) (by omega) hne hrelative hjoined
  obtain rfl : hole = [] := List.length_eq_zero_iff.mp (by omega)
  rw [hjoin, store, if_neg]
  rw [List.append_nil, List.length_append, List.length_singleton]
  exact Nat.lt_irrefl _

/-- **A working directory of one byte less** hides every relative input. -/
theorem join_hides (hcwd : 0 ∉ cwd) (hlength : cwd.length = 510) (hne : input ≠ [])
    (hrelative : input.head? ≠ some slash) (hjoined : joined.length = pathMax) :
    join cwd input joined = some (cwd ++ [slash] ++ [0]) := by
  have hmax : pathMax = 512 := rfl
  obtain ⟨hole, hjoin, hhole⟩ := join_long hcwd (by omega) (by omega) hne hrelative hjoined
  obtain ⟨old, rfl⟩ : ∃ old, hole = [old] := List.length_eq_one_iff.mp (by omega)
  have hstore := store_append (cwd ++ [slash]) [] old 0
  rw [List.length_append, List.length_singleton] at hstore
  rw [hjoin, hstore]

/-! ## The path in the buffer -/

/-- `..`: the last byte goes, and then all bytes behind the last separator that is left. -/
def goUp (path : List UInt8) : List UInt8 :=
  if path.length > 1 then path.dropLast.rdropWhile fun c => !isSeparator c else path

/-- A name, with a separator before it unless the path is one byte long. -/
def enter (path name : List UInt8) : List UInt8 :=
  (if path.length > 1 then path ++ [slash] else path) ++ name

/-- What a component does to the path, if there is room. -/
def write (path component : List UInt8) : List UInt8 :=
  if component = dot then path
  else if component = dotDot then goUp path
  else enter path component

/-- What a component does to the path in a buffer of `pathMax` bytes. -/
def writeStep (path component : List UInt8) : Option (List UInt8) :=
  if (write path component).length < pathMax then some (write path component) else none

/-- The inner loop for `..` stops behind the last separator. -/
theorem climb_eq (hhead : path.head? = some slash) (hole : List UInt8) :
    climb (path ++ hole) path.length =
      some (path.rdropWhile fun c => !isSeparator c).length := by
  induction path using List.reverseRecOn generalizing hole with
  | nil => cases hhead
  | append_singleton path c ih =>
    rw [List.length_append, List.length_singleton, climb]
    cases path with
    | nil =>
      obtain rfl : c = slash := Option.some.inj hhead
      rfl
    | cons first path =>
      rw [if_pos (by rw [List.length_cons]; omega), List.append_assoc, List.singleton_append,
        getElem?_length]
      simp only [Option.bind_eq_bind, Option.bind_some]
      by_cases hc : c = slash
      · rw [if_neg fun h => h hc, hc, List.rdropWhile_concat_neg _ _ _ (by decide),
          List.length_append, List.length_singleton]
      · have hkeep : (!isSeparator c) = true := by
          rw [isSeparator, beq_eq_false_iff_ne.mpr hc]
          rfl
        rw [if_pos hc, List.rdropWhile_concat_pos (fun c => !isSeparator c) _ _ hkeep]
        exact ih hhead _

theorem head_of_above {above : List UInt8} (habove : above <+: path) (hne : above ≠ [])
    (hhead : path.head? = some slash) : above.head? = some slash := by
  obtain ⟨rest, rfl⟩ := habove
  cases above with
  | nil => exact absurd rfl hne
  | cons first above => exact hhead

theorem dropLast_head (hhead : path.head? = some slash) (hone : path.length > 1) :
    path.dropLast.head? = some slash := by
  have habove := List.dropLast_prefix path
  refine head_of_above habove ?_ hhead
  rw [← List.length_pos_iff, List.length_dropLast]
  omega

theorem goUp_above (path : List UInt8) : goUp path <+: path := by
  rw [goUp]
  split
  · have habove := List.dropLast_prefix path
    exact List.rdropWhile_prefix _ _ |>.trans habove
  · exact List.prefix_refl _

theorem goUp_head (hhead : path.head? = some slash) : (goUp path).head? = some slash := by
  refine head_of_above (goUp_above path) ?_ hhead
  rw [goUp]
  split
  · rename_i hone
    -- the first byte is a separator, so it stays
    have hfirst := dropLast_head hhead hone
    intro hnil
    have hall := List.rdropWhile_eq_nil_iff.mp hnil slash (List.mem_of_mem_head? hfirst)
    cases hall
  · rintro rfl
    cases hhead

theorem enter_head (hhead : path.head? = some slash) (name : List UInt8) :
    (enter path name).head? = some slash := by
  cases path with
  | nil => cases hhead
  | cons first path =>
    rw [enter]
    split
    · exact hhead
    · exact hhead

theorem write_head (hhead : path.head? = some slash) (component : List UInt8) :
    (write path component).head? = some slash := by
  rw [write]
  split
  · exact hhead
  split
  · exact goUp_head hhead
  · exact enter_head hhead component

theorem up_eq (hhead : path.head? = some slash) (hole : List UInt8) :
    up (path ++ hole) path.length = some (goUp path).length := by
  rw [up, goUp]
  by_cases hone : path.length > 1
  · have hne : path ≠ [] := by
      rintro rfl
      cases hhead
    have hclimb := climb_eq (dropLast_head hhead hone) (path.getLast hne :: hole)
    rw [List.append_cons, List.dropLast_append_getLast, List.length_dropLast] at hclimb
    rw [if_pos hone, if_pos hone, hclimb]
  · rw [if_neg hone, if_neg hone]

/-- What a call leaves in its buffer: the path, or a failure. -/
def Leaves (result : Option (List UInt8)) (call : Option (Bool × List UInt8)) : Prop :=
  match result with
  | some path => ∃ rest, call = some (true, path ++ 0 :: rest)
  | none => ∃ output, call = some (false, output)

theorem leaves_finish (hroom : path.length < pathMax)
    (hlength : path.length + hole.length = pathMax) :
    Leaves (some path) (finish (path ++ hole) path.length) := by
  cases hole with
  | nil =>
    rw [List.length_nil] at hlength
    omega
  | cons old rest =>
    refine ⟨rest, ?_⟩
    rw [finish, store_append]
    rfl

/-- The separator before a name always has room. -/
theorem separate_eq (hroom : path.length < pathMax)
    (hlength : path.length + hole.length = pathMax) :
    ∃ before hole', separate (path ++ hole) path.length =
        some (before.length, before ++ hole') ∧
      before = (if path.length > 1 then path ++ [slash] else path) ∧
      before.length + hole'.length = pathMax := by
  rw [separate]
  by_cases hone : path.length > 1
  · cases hole with
    | nil =>
      rw [List.length_nil] at hlength
      omega
    | cons old rest =>
      refine ⟨path ++ [slash], rest, ?_, (if_pos hone).symm, ?_⟩
      · rw [if_pos hone, store_append, List.length_append, List.length_singleton,
          ← List.append_cons]
        rfl
      · rw [List.length_cons] at hlength
        rw [List.length_append, List.length_singleton]
        omega
  · exact ⟨path, hole, if_neg hone, (if_neg hone).symm, hlength⟩

/-- Writing a name: the separator, the check and the bytes. -/
theorem leaves_enter (hroom : path.length < pathMax) (hlength : path.length + hole.length = pathMax)
    {next : ℕ → List UInt8 → Option (Bool × List UInt8)} {result : Option (List UInt8)}
    (hnext : ∀ hole, (enter path name).length < pathMax →
      (enter path name).length + hole.length = pathMax →
      Leaves result (next (enter path name).length (enter path name ++ hole))) :
    Leaves (if (enter path name).length < pathMax then result else none)
      ((separate (path ++ hole) path.length).bind fun (out, output) =>
        if out + name.length ≥ pathMax then some (false, output)
        else (storeAll output out name).bind fun output => next (out + name.length) output) := by
  obtain ⟨before, hole', hseparate, hbefore, hlength'⟩ := separate_eq hroom hlength
  rw [enter, ← hbefore] at hnext ⊢
  rw [hseparate, Option.bind_some]
  dsimp only
  rw [List.length_append] at hnext ⊢
  by_cases hfits : before.length + name.length < pathMax
  · rw [if_pos hfits, if_neg (Nat.not_le.mpr hfits), storeAll_eq before name (by omega),
      Option.bind_some]
    refine hnext _ hfits ?_
    rw [List.length_drop]
    omega
  · rw [if_neg hfits, if_pos (Nat.not_lt.mp hfits)]
    exact ⟨_, rfl⟩

/-- One component in the loop: what is there before the next one is what `writeStep` says. -/
theorem leaves_component (hhead : path.head? = some slash) (hroom : path.length < pathMax)
    (hlength : path.length + hole.length = pathMax) (component : List UInt8)
    {next : ℕ → List UInt8 → Option (Bool × List UInt8)} {result : List UInt8 → Option (List UInt8)}
    (hnext : ∀ path hole, path.head? = some slash → path.length < pathMax →
      path.length + hole.length = pathMax →
      Leaves (result path) (next path.length (path ++ hole))) :
    Leaves ((writeStep path component).bind result)
      (if component = dot then next path.length (path ++ hole)
      else if component = dotDot then
        (up (path ++ hole) path.length).bind fun out => next out (path ++ hole)
      else
        (separate (path ++ hole) path.length).bind fun (out, output) =>
          if out + component.length ≥ pathMax then some (false, output)
          else
            (storeAll output out component).bind fun output =>
              next (out + component.length) output) := by
  rw [writeStep, write]
  by_cases hdot : component = dot
  · simp only [if_pos hdot]
    rw [if_pos hroom]
    exact hnext path hole hhead hroom hlength
  simp only [if_neg hdot]
  by_cases hdotDot : component = dotDot
  · simp only [if_pos hdotDot]
    obtain ⟨left, hleft⟩ := goUp_above path
    have hshort : (goUp path).length ≤ path.length := (goUp_above path).length_le
    rw [if_pos (by omega), up_eq hhead, Option.bind_some, Option.bind_some]
    -- what was removed is still in the buffer
    have hgoes := hnext (goUp path) (left ++ hole) (goUp_head hhead) (by omega) (by
      rw [List.length_append, ← Nat.add_assoc, ← List.length_append, hleft]
      exact hlength)
    rw [← List.append_assoc, hleft] at hgoes
    exact hgoes
  · simp only [if_neg hdotDot]
    have hentered (hole : List UInt8) :=
      hnext (enter path component) hole (enter_head hhead component)
    have hname := leaves_enter hroom hlength hentered
    by_cases hfits : (enter path component).length < pathMax
    · rw [if_pos hfits] at hname ⊢
      exact hname
    · rw [if_neg hfits] at hname ⊢
      exact hname

/-- The two inner loops find the next word of what is left of the string, and the string goes on
behind it. -/
theorem next_component (before : List UInt8) {cursor : List UInt8} (hcursor : 0 ∉ cursor)
    (rest : List UInt8) {buffer : List UInt8} (hbuffer : buffer = before ++ (cursor ++ 0 :: rest))
    {word behind : List UInt8}
    (hword : word = (cursor.dropWhile isSeparator).takeWhile fun c => !isSeparator c)
    (hbehind : behind = (cursor.dropWhile isSeparator).dropWhile fun c => !isSeparator c) :
    ∃ start, scan isSeparator buffer buffer.length before.length = some start ∧
      scan (fun c => c ≠ 0 && !isSeparator c) buffer buffer.length start =
        some (start + word.length) ∧
      (buffer.drop start).take word.length = word ∧
      ∃ before', before'.length = start + word.length ∧
        buffer = before' ++ (behind ++ 0 :: rest) := by
  have hseparators : cursor.takeWhile isSeparator ++ cursor.dropWhile isSeparator = cursor :=
    List.takeWhile_append_dropWhile
  have hsplit : word ++ behind = cursor.dropWhile isSeparator := by
    rw [hword, hbehind, List.takeWhile_append_dropWhile]
  -- there is no null in the string, so the second loop stops at a separator or at its end
  have hkeep : (cursor.dropWhile isSeparator).takeWhile (fun c => c ≠ 0 && !isSeparator c) =
      word := by
    rw [hword]
    refine takeWhile_congr fun c hc => ?_
    have hne : c ≠ 0 := by
      rintro rfl
      exact hcursor ((List.dropWhile_suffix _).subset hc)
    rw [decide_eq_true hne, Bool.true_and]
  have hstart : buffer = (before ++ cursor.takeWhile isSeparator) ++
      (cursor.dropWhile isSeparator ++ 0 :: rest) := by
    rw [hbuffer, List.append_assoc, ← List.append_assoc (cursor.takeWhile isSeparator),
      hseparators]
  refine ⟨(before ++ cursor.takeWhile isSeparator).length, ?_, ?_, ?_,
    before ++ cursor.takeWhile isSeparator ++ word, ?_, ?_⟩
  · rw [hbuffer, scan_takeWhile before cursor (by decide) rest, List.length_append]
  · rw [hstart, scan_takeWhile _ _ (by decide) rest, hkeep]
  · rw [hstart, List.drop_left, ← hsplit, List.append_assoc, List.take_left]
  · exact List.length_append
  · rw [hstart, ← hsplit]
    simp only [List.append_assoc]

/-- **The loop over the components** is a fold of `writeStep` over them. -/
theorem components_leaves (before : List UInt8) {cursor : List UInt8} (hcursor : 0 ∉ cursor)
    (rest : List UInt8) (hfuel : cursor.length ≤ fuel) (hhead : path.head? = some slash)
    (hroom : path.length < pathMax) (hlength : path.length + hole.length = pathMax) :
    Leaves ((words isSeparator cursor).foldlM writeStep path)
      (components (before ++ (cursor ++ 0 :: rest)) fuel before.length path.length
        (path ++ hole)) := by
  induction fuel generalizing before cursor path hole with
  | zero =>
    obtain rfl := List.length_eq_zero_iff.mp (Nat.le_zero.mp hfuel)
    unfold components
    rw [List.nil_append, getElem?_length]
    exact leaves_finish hroom hlength
  | succ fuel ih =>
    unfold components
    cases hc : cursor with
    | nil =>
      rw [List.nil_append, getElem?_length]
      exact leaves_finish hroom hlength
    | cons c tail =>
      rw [← hc]
      have hbyte : (before ++ (cursor ++ 0 :: rest))[before.length]? = some c := by
        rw [hc]
        exact getElem?_length before c _
      have hne : c ≠ 0 := by
        rintro rfl
        exact hcursor (hc ▸ List.mem_cons_self)
      obtain ⟨start, hstart, hend, hcomponent, before', hbefore', hbuffer⟩ :=
        next_component before hcursor rest rfl rfl rfl
      rw [hbyte]
      simp only [Option.bind_eq_bind, Option.bind_some]
      rw [if_neg hne, hstart, Option.bind_some, hend, Option.bind_some]
      rw [Nat.add_sub_cancel_left, hcomponent, ← words_dropWhile]
      -- behind separators only there is no component left
      cases hdrop : cursor.dropWhile isSeparator with
      | nil => exact leaves_finish hroom hlength
      | cons x tail =>
        rw [hdrop] at hbefore' hbuffer
        have hx : isSeparator x = false := head_dropWhile hdrop
        have hfirst : (x :: tail).takeWhile (fun c => !isSeparator c) =
            x :: tail.takeWhile fun c => !isSeparator c :=
          List.takeWhile_cons_of_pos (by rw [hx]; rfl)
        have hbehind : (x :: tail).dropWhile (fun c => !isSeparator c) <:+ tail := by
          rw [List.dropWhile_cons_of_pos (by rw [hx]; rfl)]
          exact List.dropWhile_suffix _
        have htail : (x :: tail) <:+ cursor := hdrop ▸ List.dropWhile_suffix _
        rw [words_cons_word x tail hx, List.foldlM_cons,
          if_neg (by rw [hfirst]; exact Nat.succ_ne_zero _)]
        refine leaves_component hhead hroom hlength _ fun path hole hhead hroom hlength => ?_
        rw [hbuffer, ← hbefore']
        refine ih before' (fun hzero => ?_) ?_ hhead hroom hlength
        · exact hcursor (htail.subset (List.mem_cons_of_mem x (hbehind.subset hzero)))
        · have hle := hbehind.length_le
          have hle' := htail.length_le
          rw [List.length_cons] at hle'
          omega

/-! ## What the path means -/

theorem words_concat_slash (path : List UInt8) :
    words isSeparator (path ++ [slash]) = words isSeparator path := by
  rw [words_append_cons path [] Vfs.isSeparator_slash, words_nil, List.append_nil]

/-- A string that starts with a separator, up to the last separator and behind it. -/
theorem exists_last (hhead : path.head? = some slash) :
    ∃ above last, path = above ++ slash :: last ∧ (∀ c ∈ last, isSeparator c = false) ∧
      path.rdropWhile (fun c => !isSeparator c) = above ++ [slash] := by
  have hsplit : path.rdropWhile (fun c => !isSeparator c) ++
      path.rtakeWhile (fun c => !isSeparator c) = path := List.rdropWhile_append_rtakeWhile
  have hlast : ∀ c ∈ path.rtakeWhile (fun c => !isSeparator c), isSeparator c = false :=
    fun c hc => by simpa using List.mem_rtakeWhile_imp hc
  have hne : path.rdropWhile (fun c => !isSeparator c) ≠ [] := by
    intro hnil
    cases List.rdropWhile_eq_nil_iff.mp hnil slash (List.mem_of_mem_head? hhead)
  have hend : (path.rdropWhile fun c => !isSeparator c).getLast hne = slash := by
    have := List.rdropWhile_last_not (fun c => !isSeparator c) path hne
    rw [Bool.not_eq_true, Bool.not_eq_false'] at this
    exact eq_of_beq this
  have habove := List.dropLast_append_getLast hne
  rw [hend] at habove
  refine ⟨_, _, ?_, hlast, habove.symm⟩
  rw [List.append_cons, habove, hsplit]

theorem eq_slash (hhead : path.head? = some slash) (hone : ¬path.length > 1) : path = [slash] := by
  cases path with
  | nil => cases hhead
  | cons first path =>
    obtain rfl : first = slash := Option.some.inj hhead
    rw [List.length_cons] at hone
    rw [List.length_eq_zero_iff.mp (show path.length = 0 by omega)]

/-- **`..` drops the last name**, when the path does not end in two separators. -/
theorem words_goUp (hhead : path.head? = some slash) (hend : ¬[slash, slash] <:+ path) :
    words isSeparator (goUp path) = (words isSeparator path).dropLast := by
  by_cases hone : path.length > 1
  · obtain ⟨above, last, hpath, hlast, hdrop⟩ := exists_last (dropLast_head hhead hone)
    have hne : path ≠ [] := by
      rintro rfl
      cases hhead
    have hwhole := List.dropLast_append_getLast hne
    generalize path.getLast hne = c at hwhole
    rw [goUp, if_pos hone, hdrop, words_concat_slash]
    rw [hpath] at hwhole
    by_cases hc : c = slash
    · -- the path ends in one separator, and what it is behind is a name
      have hname : last ≠ [] := by
        rintro rfl
        rw [hc, List.append_assoc] at hwhole
        exact hend ⟨above, hwhole⟩
      rw [← hwhole, hc, words_concat_slash, words_append_cons _ _ Vfs.isSeparator_slash,
        words_word hname hlast, List.dropLast_concat]
    · have hname : ∀ x ∈ last ++ [c], isSeparator x = false := by
        intro x hx
        rcases List.mem_append.mp hx with hx | hx
        · exact hlast x hx
        · rw [List.mem_singleton.mp hx]
          exact beq_eq_false_iff_ne.mpr hc
      rw [← hwhole, List.append_assoc, List.cons_append,
        words_append_cons _ _ Vfs.isSeparator_slash,
        words_word (List.append_ne_nil_of_right_ne_nil _ (List.cons_ne_nil _ _)) hname,
        List.dropLast_concat]
  · rw [eq_slash hhead hone]
    rfl

theorem words_enter (hhead : path.head? = some slash) (hname : IsWord name) :
    words isSeparator (enter path name) = words isSeparator path ++ [name] := by
  have hword := words_word hname.1 hname.2
  rw [enter]
  split
  · rw [← List.append_cons, words_append_cons _ _ Vfs.isSeparator_slash, hword]
  · rename_i hone
    rw [eq_slash hhead hone, List.singleton_append, words_cons_sep _ Vfs.isSeparator_slash, hword]
    rfl

/-- **A component has its meaning** in the path that init writes. -/
theorem words_write {component : List UInt8} (hhead : path.head? = some slash)
    (hcomponent : IsWord component) (hend : component = dotDot → ¬[slash, slash] <:+ path) :
    words isSeparator (write path component) =
      Vfs.resolveStep (words isSeparator path) component := by
  rw [write, Vfs.resolveStep]
  split
  · rfl
  split
  · rename_i hdotDot
    exact words_goUp hhead (hend hdotDot)
  · exact words_enter hhead hcomponent

/-- No `..` comes when the path that is written ends in two separators. -/
def Straight : List UInt8 → List (List UInt8) → Prop
  | _, [] => True
  | path, component :: components =>
    (component = dotDot → ¬[slash, slash] <:+ path) ∧ Straight (write path component) components

instance decidableStraight : ∀ path components, Decidable (Straight path components)
  | _, [] => isTrue trivial
  | path, component :: components =>
    haveI := decidableStraight (write path component) components
    inferInstanceAs (Decidable ((component = dotDot → ¬[slash, slash] <:+ path) ∧
      Straight (write path component) components))

theorem write_null {component : List UInt8} (hpath : 0 ∉ path) (hcomponent : 0 ∉ component) :
    0 ∉ write path component := by
  rw [write]
  split
  · exact hpath
  split
  · exact fun hzero => hpath ((goUp_above path).subset hzero)
  · rw [enter, List.mem_append, not_or]
    refine ⟨?_, hcomponent⟩
    split
    · rw [List.mem_append, not_or]
      exact ⟨hpath, by decide⟩
    · exact hpath

/-- The components one after the other: the path starts with a separator, fits, has no null, and has
the meaning of them all. -/
theorem foldlM_writeStep {components : List (List UInt8)}
    (hcomponents : ∀ component ∈ components, IsWord component)
    (hnulls : ∀ component ∈ components, 0 ∉ component) {path' : List UInt8}
    (hhead : path.head? = some slash) (hroom : path.length < pathMax) (hnull : 0 ∉ path)
    (hstraight : Straight path components) (hfold : components.foldlM writeStep path = some path') :
    path'.head? = some slash ∧ path'.length < pathMax ∧ 0 ∉ path' ∧
      words isSeparator path' = components.foldl Vfs.resolveStep (words isSeparator path) := by
  induction components generalizing path with
  | nil =>
    obtain rfl := Option.some.inj hfold
    exact ⟨hhead, hroom, hnull, rfl⟩
  | cons component components ih =>
    obtain ⟨hcomponent, hrest⟩ := List.forall_mem_cons.mp hcomponents
    obtain ⟨hzero, hnulls⟩ := List.forall_mem_cons.mp hnulls
    rw [List.foldlM_cons] at hfold
    obtain ⟨next, hstep, hfold⟩ := Option.bind_eq_some_iff.mp hfold
    rw [writeStep] at hstep
    split at hstep
    · rename_i hfits
      obtain rfl := Option.some.inj hstep
      rw [List.foldl_cons, ← words_write hhead hcomponent hstraight.1]
      exact ih hrest hnulls (write_head hhead component) hfits (write_null hnull hzero)
        hstraight.2 hfold
    · cases hstep

/-! ## The working directory and the input -/

theorem write_render (h : Canonical names) (hname : IsName name) :
    write (render names) name = render (names ++ [name]) := by
  rw [write, if_neg hname.ne_dot, if_neg hname.ne_dotDot, enter, Vfs.render_append_singleton]
  cases names with
  | nil => rfl
  | cons first names =>
    have hone := Vfs.length_render_ne_one h.plain (List.cons_ne_nil _ _)
    have hpos : (render (first :: names)).length ≠ 0 := fun hzero => Nat.succ_ne_zero _ hzero
    rw [if_pos (by omega), Vfs.render_of_ne_nil (List.cons_ne_nil _ _), ← List.append_cons]

/-- A canonical path is written as it is. -/
theorem foldlM_names (h : Canonical names) (hroom : (render names).length < pathMax)
    {behind rest : List (List UInt8)} (hsplit : behind ++ rest = names) :
    rest.foldlM writeStep (render behind) = some (render names) := by
  induction rest generalizing behind with
  | nil =>
    rw [List.append_nil] at hsplit
    exact congrArg (fun names => some (render names)) hsplit
  | cons name rest ih =>
    have hnext : behind ++ [name] ++ rest = names := by
      rw [List.append_assoc]
      exact hsplit
    have hname : IsName name := h name (hsplit ▸ List.mem_append_right _ List.mem_cons_self)
    have hbehind : Canonical behind := h.above ⟨_, hsplit⟩
    have hlength := Vfs.length_render_le h.plain ⟨rest, hnext⟩
    rw [List.foldlM_cons, writeStep, write_render hbehind hname, if_pos (by omega)]
    exact ih hnext

theorem words_joinedText (h : Canonical names) (input : List UInt8) :
    words isSeparator (joinedText (render names) input) =
      Vfs.startNames input (some names) ++ words isSeparator input := by
  rw [joinedText, Vfs.startNames]
  split
  · rfl
  · split
    · rw [words_append_cons _ _ Vfs.isSeparator_slash, Vfs.words_render h.plain]
      rfl
    · rename_i hone
      cases names with
      | nil => exact words_cons_sep input Vfs.isSeparator_slash
      | cons name names =>
        have hne := Vfs.length_render_ne_one h.plain (List.cons_ne_nil _ _)
        have hpos : (render (name :: names)).length ≠ 0 := fun hzero => Nat.succ_ne_zero _ hzero
        omega

theorem joinedText_null (hcwd : 0 ∉ cwd) (hinput : 0 ∉ input) : 0 ∉ joinedText cwd input := by
  rw [joinedText]
  split
  · exact hinput
  split
  · rw [List.mem_append, List.mem_cons, not_or, not_or]
    exact ⟨hcwd, by decide, hinput⟩
  · rw [List.mem_append, not_or]
    exact ⟨hcwd, hinput⟩

/-- The components of what is joined: first those of the working directory, which are written as
they are. -/
theorem foldlM_joinedText (h : Canonical names) (hcwd : (render names).length < pathMax)
    (input : List UInt8) :
    (words isSeparator (joinedText (render names) input)).foldlM writeStep [slash] =
      (words isSeparator input).foldlM writeStep
        (render (Vfs.startNames input (some names))) := by
  have hstart : (Vfs.startNames input (some names)).foldlM writeStep [slash] =
      some (render (Vfs.startNames input (some names))) := by
    rw [Vfs.startNames]
    split
    · rfl
    · exact foldlM_names h hcwd (List.nil_append names)
  rw [words_joinedText h, List.foldlM_append, hstart]
  rfl

/-- **`resolve`** is a fold of `writeStep` over the components of the input, when the working
directory and the input fit together. -/
theorem resolve_leaves (hnames : Canonical names) (hnull : 0 ∉ render names)
    (hcwd : (render names).length < pathMax) (hinput : 0 ∉ input)
    (hroom : (joinedText (render names) (if input = [] then dot else input)).length < pathMax)
    {output : List UInt8} (hjoined : joined.length = pathMax) (houtput : output.length = pathMax) :
    Leaves ((words isSeparator input).foldlM writeStep
      (render (Vfs.startNames input (some names))))
      (resolve (render names) input joined output) := by
  -- an empty input is taken for `.`, which changes nothing
  have hdot : (words isSeparator input).foldlM writeStep
      (render (Vfs.startNames input (some names))) =
      (words isSeparator (if input = [] then dot else input)).foldlM writeStep
        (render (Vfs.startNames (if input = [] then dot else input) (some names))) := by
    split
    · rename_i hempty
      have hstep : writeStep (render names) dot = some (render names) := by
        rw [writeStep, write, if_pos rfl, if_pos hcwd]
      have hwords : words isSeparator dot = [dot] := by decide
      rw [hempty, hwords, List.foldlM_cons]
      exact (congrArg (·.bind pure) hstep).symm
    · rfl
  have htext : (if input = [] then dot else input) ≠ [] ∧
      0 ∉ (if input = [] then dot else input) := by
    split
    · decide
    · rename_i hne
      exact ⟨hne, hinput⟩
  rw [hdot, resolve]
  generalize (if input = [] then dot else input) = text at hroom htext ⊢
  obtain ⟨rest, hjoin⟩ := join_eq hnull htext.2 htext.1 hroom hjoined
  rw [hjoin, ← foldlM_joinedText hnames hcwd text]
  cases output with
  | nil => cases houtput
  | cons old hole =>
    refine components_leaves [] (joinedText_null hnull htext.2) rest ?_ rfl (by decide) ?_
    · rw [List.length_append]
      omega
    · rw [List.length_cons] at houtput
      rw [List.length_singleton]
      omega

theorem joinedText_room (hlength : input.length ≤ 255)
    (hroom : input.head? = some slash ∨ names = [] ∨
      (render names).length + 1 + max 1 input.length ≤ 511) :
    (joinedText (render names) (if input = [] then dot else input)).length < pathMax := by
  have htext : (if input = [] then dot else input).length ≤ max 1 input.length ∧
      (input.head? = some slash → (if input = [] then dot else input).head? = some slash) := by
    split
    · rename_i hempty
      exact ⟨Nat.le_max_left _ _, fun habsolute => by rw [hempty] at habsolute; cases habsolute⟩
    · exact ⟨Nat.le_max_right _ _, id⟩
  have hmax : max 1 input.length ≤ 255 := Nat.max_le.mpr ⟨by decide, hlength⟩
  obtain ⟨htext, habsolute⟩ := htext
  generalize (if input = [] then dot else input) = text at htext habsolute ⊢
  have hpathMax : pathMax = 512 := rfl
  rw [joinedText]
  split
  · omega
  rename_i hrelative
  rcases hroom with hslash | rfl | hroom
  · exact absurd (habsolute hslash) hrelative
  · have hone : (render []).length = 1 := rfl
    rw [if_neg (by decide), List.length_append]
    omega
  · split
    · rw [List.length_append, List.length_cons]
      omega
    · rw [List.length_append]
      omega

/-- **Init and the kernel mean the same path.** When the working directory and the input fit into
one buffer, and no `..` comes when the path that is written ends in two separators, `resolve` stays
in its buffers, and when it succeeds the kernel makes of its result what it would make of the input
and the working directory. -/
theorem resolve_agrees {names : List (List UInt8)} (hnames : Canonical names)
    (hnull : 0 ∉ render names) (hcwd : (render names).length ≤ 511) {input : List UInt8}
    (hinput : 0 ∉ input) (hlength : input.length ≤ 255)
    (hroom : input.head? = some slash ∨ names = [] ∨
      (render names).length + 1 + max 1 input.length ≤ 511)
    (hstraight : Straight (render (Vfs.startNames input (some names))) (words isSeparator input))
    {joined output : List UInt8} (hjoined : joined.length = pathMax)
    (houtput : output.length = pathMax) :
    ∃ success output', resolve (render names) input joined output = some (success, output') ∧
      (success = true → 0 ∈ output' ∧ ∃ canonical,
        Vfs.normalize (cstring output') none Vfs.maxPathLength = some canonical ∧
        ∀ capacity, (render names).length + input.length + 1 < capacity →
          Vfs.normalize input (some (render names)) capacity = some canonical) := by
  have hcwd' : (render names).length < pathMax := Nat.lt_succ_of_le hcwd
  have hleaves := resolve_leaves hnames hnull hcwd' hinput (joinedText_room hlength hroom)
    hjoined houtput
  have hlengths : ∀ component ∈ words isSeparator input, component.length ≤ Vfs.maxNameLength :=
    fun component hcomponent => Nat.le_trans (length_le_of_mem_words hcomponent) hlength
  cases hfold : (words isSeparator input).foldlM writeStep
      (render (Vfs.startNames input (some names))) with
  | none =>
    rw [hfold] at hleaves
    obtain ⟨output', hresolve⟩ := hleaves
    exact ⟨false, output', hresolve, fun h => nomatch h⟩
  | some path =>
    rw [hfold] at hleaves
    obtain ⟨rest, hresolve⟩ := hleaves
    refine ⟨true, _, hresolve, fun _ => ⟨List.mem_append_right _ List.mem_cons_self, ?_⟩⟩
    have habove : Vfs.startNames input (some names) <+: names := by
      rw [Vfs.startNames]
      split
      · exact List.nil_prefix
      · exact List.prefix_refl _
    have hstart : Canonical (Vfs.startNames input (some names)) := hnames.above habove
    have hfits := Vfs.length_render_le hnames.plain habove
    have hstartNull : 0 ∉ render (Vfs.startNames input (some names)) := by
      rw [Vfs.startNames]
      split
      · decide
      · exact hnull
    obtain ⟨hhead, hroom, hzero, hmeaning⟩ := foldlM_writeStep (fun _ h => mem_words h)
      (fun _ h hzero => hinput (subset_of_mem_words h hzero)) (Vfs.head_render _)
      (Nat.lt_of_le_of_lt hfits hcwd') hstartNull hstraight hfold
    rw [Vfs.words_render hstart.plain] at hmeaning
    have hmeaning : words isSeparator path = Vfs.resolve input names := hmeaning
    -- the kernel's own normalization says that the names are names
    have hnormalize : ∀ capacity, (render names).length + input.length + 1 < capacity →
        Vfs.normalize input (some (render names)) capacity =
          some (render (Vfs.resolve input names)) := fun capacity hcapacity =>
      Vfs.normalize_resolve hnames hlengths hcapacity
    have hbase : ∀ other ∈ some names, Canonical other := fun other hother =>
      Option.some.inj hother ▸ hnames
    have hcanonical := (Vfs.normalize_eq_some hbase (hnormalize _ (Nat.lt_succ_self _))).1
    rw [cstring_append hzero]
    refine ⟨_, Vfs.normalize_words hhead (hmeaning ▸ hcanonical) hroom, ?_⟩
    rw [hmeaning]
    exact hnormalize

/-- A buffer before the call. -/
def blank : List UInt8 := List.replicate pathMax 0

theorem resolve_agrees_up :
    ∃ success output', resolve (render [[0x61], [0x62]]) [0x2E, 0x2E, 0x2F, 0x63] blank blank =
        some (success, output') ∧
      (success = true → 0 ∈ output' ∧ ∃ canonical,
        Vfs.normalize (cstring output') none Vfs.maxPathLength = some canonical ∧
        ∀ capacity, 9 < capacity →
          Vfs.normalize [0x2E, 0x2E, 0x2F, 0x63] (some (render [[0x61], [0x62]])) capacity =
            some canonical) := by
  have hname : ∀ c, c = 0x61 ∨ c = 0x62 → IsName [c] := by
    rintro c (rfl | rfl)
    · exact Vfs.isName_singleton rfl (by decide)
    · exact Vfs.isName_singleton rfl (by decide)
  have hnames : Canonical [[0x61], [0x62]] := by
    intro name hname'
    rcases List.mem_cons.mp hname' with rfl | hname'
    · exact hname _ (Or.inl rfl)
    · exact List.mem_singleton.mp hname' ▸ hname _ (Or.inr rfl)
  exact resolve_agrees hnames (by decide) (by decide) (by decide) (by decide) (by decide)
    (by decide) List.length_replicate List.length_replicate

/-- A name of `count` letters. -/
def longName (count : ℕ) : List UInt8 := List.replicate count 0x61

/-- `/a/b/../c/../..`. -/
def twiceUp : List UInt8 :=
  [0x2F, 0x61, 0x2F, 0x62, 0x2F, 0x2E, 0x2E, 0x2F, 0x63, 0x2F, 0x2E, 0x2E, 0x2F, 0x2E, 0x2E]

theorem longNames_null (first second : ℕ) :
    0 ∉ render [longName first, longName second] := by
  intro hzero
  rw [Vfs.render_of_ne_nil (List.cons_ne_nil _ _), List.mem_flatMap] at hzero
  obtain ⟨name, hname, hzero⟩ := hzero
  have hletters : ∀ count, 0 ∉ longName count := fun count h =>
    absurd (List.eq_of_mem_replicate h) (by decide)
  have hbytes : 0 ∉ name := by
    rcases List.mem_cons.mp hname with rfl | hname
    · exact hletters first
    · exact List.mem_singleton.mp hname ▸ hletters second
  rcases List.mem_cons.mp hzero with hzero | hzero
  · exact absurd hzero (by decide)
  · exact hbytes hzero

theorem longNames_length (first second : ℕ) :
    (render [longName first, longName second]).length = first + second + 2 := by
  rw [Vfs.render_of_ne_nil (List.cons_ne_nil _ _), List.flatMap_cons, List.flatMap_singleton,
    List.length_append, List.length_cons, List.length_cons, longName, longName,
    List.length_replicate, List.length_replicate]
  omega

/-- The three ways in which `resolve` fails: a working directory of 511 bytes makes it write behind
`joined`; with one of 510 bytes the input `x` is taken for `.`; and of `/a/b/../c/../..` it makes
`/a`, where the kernel makes `/`. -/
theorem resolve_diverges :
    resolve (render [longName 255, longName 254]) [0x78] blank blank = none ∧
    resolve (render [longName 255, longName 253]) [0x78] blank blank =
      resolve (render [longName 255, longName 253]) dot blank blank ∧
    ((resolve [slash] twiceUp blank blank).map fun result =>
        (result.1, Vfs.normalize (cstring result.2) none Vfs.maxPathLength)) =
      some (true, some (render [[0x61]])) ∧
    Vfs.normalize twiceUp (some [slash]) 1024 = some [slash] := by
  have hblank : blank.length = pathMax := List.length_replicate
  refine ⟨?_, ?_, by decide +kernel⟩
  · rw [resolve, if_neg (by decide), join_outside (longNames_null _ _) (longNames_length _ _)
      (by decide) (by decide) hblank]
    rfl
  · rw [resolve, resolve, if_neg (by decide), if_neg (by decide),
      join_hides (longNames_null _ _) (longNames_length _ _) (by decide) (by decide) hblank,
      join_hides (longNames_null _ _) (longNames_length _ _) (by decide) (by decide) hblank]

end ShirleysOS.User.Init
