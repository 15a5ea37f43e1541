import Mathlib.Data.List.TakeWhile
import ShirleysOS.Lib.Words
import ShirleysOS.Text.Buffers
import ShirleysOS.Text.Strings

/-!
# The string functions on buffers

A loop over the bytes of a buffer, and the functions of `Text.Strings` access by access: one that is
outside of a buffer makes the whole call `none`. Source: `kernel/text/string.cpp`.
-/

namespace ShirleysOS.Text

open Lib

/-- A loop that goes on as long as it meets bytes to `keep`: where it stops. -/
def scan (keep : UInt8 → Bool) (buffer : List UInt8) : ℕ → ℕ → Option ℕ
  | fuel, i => do
    let byte ← buffer[i]?
    if keep byte then
      match fuel with
      | 0 => none
      | fuel + 1 => scan keep buffer fuel (i + 1)
    else some i

/-- `length` of the string in a buffer. -/
def stringLength (buffer : List UInt8) : Option ℕ := scan (· ≠ 0) buffer buffer.length 0

/-- The loop that `copy` and `append` write a string with. -/
def storeAll (buffer : List UInt8) : ℕ → List UInt8 → Option (List UInt8)
  | _, [] => some buffer
  | i, byte :: bytes => do
    let buffer ← store buffer i byte
    storeAll buffer (i + 1) bytes

/-- `copy` to a buffer: whether the string fits, and the buffer. -/
def copyBuffer (destination source : List UInt8) : Option (Bool × List UInt8) :=
  if destination.length = 0 then some (false, destination)
  else do
    let destination ← store destination 0 0
    if source.length + 1 > destination.length then some (false, destination)
    else do
      let destination ← storeAll destination 0 source
      let destination ← store destination source.length 0
      some (true, destination)

/-- `append` to the string in a buffer. -/
def appendBuffer (destination source : List UInt8) : Option (Bool × List UInt8) :=
  if destination.length = 0 then some (false, destination)
  else do
    let used ← stringLength destination
    if used + source.length + 1 > destination.length then some (false, destination)
    else do
      let destination ← storeAll destination used source
      let destination ← store destination (used + source.length) 0
      some (true, destination)

/-- A call on a buffer of `capacity` bytes goes well, and does what the string function does. -/
def Gives (capacity : ℕ) (result : Option (List UInt8)) (call : Option (Bool × List UInt8)) :
    Prop :=
  ∃ ok buffer, call = some (ok, buffer) ∧ buffer.length = capacity ∧
    match result with
    | none => ok = false
    | some out => ok = true ∧ ∃ rest, buffer = out ++ 0 :: rest

variable {capacity fuel : ℕ} {out rest hole : List UInt8}

theorem gives_none {buffer : List UInt8} (hlength : buffer.length = capacity) :
    Gives capacity none (some (false, buffer)) := ⟨false, buffer, rfl, hlength, rfl⟩

theorem gives_some (hlength : (out ++ 0 :: rest).length = capacity) :
    Gives capacity (some out) (some (true, out ++ 0 :: rest)) :=
  ⟨true, _, rfl, hlength, rfl, rest, rfl⟩

/-- A loop stops behind the bytes to keep. -/
theorem scan_append {keep : UInt8 → Bool} (before : List UInt8) {run : List UInt8}
    (hrun : ∀ c ∈ run, keep c = true) {stop : UInt8} (hstop : keep stop = false) (rest : List UInt8)
    (hfuel : run.length ≤ fuel) :
    scan keep (before ++ (run ++ stop :: rest)) fuel before.length =
      some (before.length + run.length) := by
  induction run generalizing before fuel with
  | nil =>
    unfold scan
    rw [List.nil_append, getElem?_length]
    simp only [Option.bind_eq_bind, Option.bind_some, hstop]
    rfl
  | cons c run ih =>
    obtain ⟨hc, hrun⟩ := List.forall_mem_cons.mp hrun
    cases fuel with
    | zero => exact absurd hfuel (Nat.not_succ_le_zero _)
    | succ fuel =>
      have hnext := ih (before ++ [c]) hrun (Nat.le_of_succ_le_succ hfuel)
      rw [List.append_assoc, List.singleton_append, List.length_append, List.length_singleton]
        at hnext
      rw [List.cons_append, scan, getElem?_length]
      simp only [Option.bind_eq_bind, Option.bind_some, hc, if_true]
      rw [hnext, List.length_cons, Nat.add_assoc, Nat.add_comm 1]

/-- A loop over a string, which a byte not to keep follows. -/
theorem scan_takeWhile {keep : UInt8 → Bool} (before text : List UInt8) {stop : UInt8}
    (hstop : keep stop = false) (rest : List UInt8) :
    scan keep (before ++ (text ++ stop :: rest)) (before ++ (text ++ stop :: rest)).length
      before.length = some (before.length + (text.takeWhile keep).length) := by
  have hrun : ∀ c ∈ text.takeWhile keep, keep c = true := fun c hc => List.mem_takeWhile_imp hc
  have hfuel : (text.takeWhile keep).length ≤ (before ++ (text ++ stop :: rest)).length := by
    have := List.takeWhile_prefix keep (l := text) |>.length_le
    rw [List.length_append, List.length_append]
    omega
  have hsplit := List.takeWhile_append_dropWhile (p := keep) (l := text)
  generalize (before ++ (text ++ stop :: rest)).length = fuel at hfuel ⊢
  cases hdrop : text.dropWhile keep with
  | nil =>
    rw [hdrop, List.append_nil] at hsplit
    rw [hsplit] at hrun hfuel ⊢
    exact scan_append before hrun hstop rest hfuel
  | cons c behind =>
    rw [hdrop] at hsplit
    have hscan := scan_append before hrun (head_dropWhile hdrop) (behind ++ stop :: rest) hfuel
    rw [← List.cons_append, ← List.append_assoc (List.takeWhile keep text), hsplit] at hscan
    exact hscan

theorem stringLength_eq (hout : 0 ∉ out) : stringLength (out ++ 0 :: rest) = some out.length := by
  have hkeep : ∀ c ∈ out, decide (c ≠ 0) = true := fun c hc =>
    decide_eq_true fun hzero => hout (hzero ▸ hc)
  have hstop : decide ((0 : UInt8) ≠ 0) = false := rfl
  have hfuel : out.length ≤ (out ++ 0 :: rest).length := by
    rw [List.length_append]
    omega
  have hscan := scan_append [] hkeep hstop rest hfuel
  rw [List.nil_append, List.length_nil, Nat.zero_add] at hscan
  exact hscan

theorem storeAll_eq (out source : List UInt8) (hroom : source.length ≤ hole.length) :
    storeAll (out ++ hole) out.length source = some (out ++ source ++ hole.drop source.length) := by
  induction source generalizing out hole with
  | nil => rw [storeAll, List.append_nil, List.length_nil, List.drop_zero]
  | cons byte source ih =>
    cases hole with
    | nil => exact absurd hroom (Nat.not_succ_le_zero _)
    | cons old hole =>
      have hnext := ih (out ++ [byte]) (Nat.le_of_succ_le_succ hroom)
      rw [List.length_append, List.length_singleton, ← List.append_cons, ← List.append_cons]
        at hnext
      rw [storeAll, store_append]
      exact hnext

theorem storeAll_store (out source tail : List UInt8) (htail : source.length < tail.length) :
    ∃ rest, (out ++ (source ++ 0 :: rest)).length = (out ++ tail).length ∧
      ((storeAll (out ++ tail) out.length source).bind fun destination =>
          (store destination (out.length + source.length) 0).bind fun destination =>
            some (true, destination)) = some (true, out ++ (source ++ 0 :: rest)) := by
  refine ⟨tail.drop (source.length + 1), ?_, ?_⟩
  · simp only [List.length_append, List.length_cons, List.length_drop]
    omega
  · rw [storeAll_eq out source (Nat.le_of_lt htail), Option.bind_some,
      List.drop_eq_getElem_cons htail, ← List.length_append, store_append, Option.bind_some,
      List.append_assoc]

/-- **`copy`** on a buffer. -/
theorem copyBuffer_gives (destination source : List UInt8) :
    Gives destination.length (copy destination.length source) (copyBuffer destination source) := by
  rw [copyBuffer, copy]
  cases destination with
  | nil =>
    exact gives_none rfl
  | cons first rest =>
    rw [if_neg (show (first :: rest).length ≠ 0 from Nat.succ_ne_zero _),
      show store (first :: rest) 0 0 = some (0 :: rest) from store_append [] rest first 0,
      Option.bind_eq_bind, Option.bind_some, List.length_cons, List.length_cons]
    by_cases hfits : source.length + 1 > rest.length + 1
    · rw [if_pos hfits, if_pos hfits]
      exact gives_none rfl
    · rw [if_neg hfits, if_neg hfits]
      obtain ⟨behind, hlength, hstore⟩ := storeAll_store [] source (0 :: rest)
        (by rw [List.length_cons]; omega)
      rw [List.nil_append, List.nil_append, List.length_nil, Nat.zero_add] at hstore
      rw [hstore]
      exact gives_some (by simpa using hlength)

/-- **`append`** on a buffer that holds a string. -/
theorem appendBuffer_gives (hout : 0 ∉ out) (source : List UInt8)
    (hlength : (out ++ 0 :: rest).length = capacity) :
    Gives capacity (append capacity out source) (appendBuffer (out ++ 0 :: rest) source) := by
  have hroom : (out ++ 0 :: rest).length = out.length + (rest.length + 1) := by simp
  have hne : (out ++ 0 :: rest).length ≠ 0 := by omega
  rw [appendBuffer, append, if_neg hne, stringLength_eq hout, Option.bind_eq_bind,
    Option.bind_some, hlength]
  by_cases hfits : out.length + source.length + 1 > capacity
  · rw [if_pos hfits, if_pos hfits]
    exact gives_none hlength
  · rw [if_neg hfits, if_neg hfits]
    obtain ⟨behind, hbehind, hstore⟩ := storeAll_store out source (0 :: rest)
      (by rw [List.length_cons]; omega)
    change Gives capacity _ ((storeAll _ _ _).bind fun destination =>
      (store destination _ 0).bind fun destination => some (true, destination))
    rw [hstore, ← List.append_assoc]
    exact gives_some (by rw [List.append_assoc, hbehind, hlength])

end ShirleysOS.Text
