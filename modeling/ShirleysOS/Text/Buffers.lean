import ShirleysOS.Text.Wtf8

/-!
# The conversions on buffers

`utf16_to_utf8` and `utf8_to_utf16` read from one buffer and write to another. Here every access
is to an index of a buffer, and one that is outside of it makes the whole call `none`: past the
terminating null of a string, past the units that were given, or past the capacity of the
destination. What the calls do to the buffers is what the conversions of `Text.Utf` say.
-/

namespace ShirleysOS.Text

/-! ## The calls -/

/-- A write to a buffer, `none` when it is outside. -/
def store {α : Type} (buffer : List α) (i : ℕ) (value : α) : Option (List α) :=
  if i < buffer.length then some (buffer.set i value) else none

/-- A read from a string and its terminating null, `none` when it is past that. -/
def byteAt (source : List UInt8) (i : ℕ) : Option UInt8 := (source ++ [0])[i]?

/-- The loop of `put`: the continuation bytes `used + following` down to `used + 1`, and what is
left of the code point for the lead byte. -/
def putContinuations (used : ℕ) : ℕ → ℕ → List UInt8 → Option (ℕ × List UInt8)
  | 0, point, destination => some (point, destination)
  | following + 1, point, destination => do
    let destination ← store destination (used + (following + 1))
      (UInt8.ofNat (0x80 ||| point &&& 0x3F))
    putContinuations used following (point >>> 6) destination

/-- The table `lead` of `put`. -/
def leadMark : ℕ → ℕ
  | 2 => 0xC0
  | 3 => 0xE0
  | 4 => 0xF0
  | _ => 0

/-- `put`: `used` and the buffer after it, or no success when the bytes do not fit. -/
def putBuffer (bytes point used : ℕ) (destination : List UInt8) :
    Option (Option (ℕ × List UInt8)) :=
  if bytes ≥ destination.length - used then some none
  else do
    let (point, destination) ← putContinuations used (bytes - 1) point destination
    let destination ← store destination used (UInt8.ofNat (leadMark bytes ||| point))
    some (some (used + bytes, destination))

/-- The low surrogate after `unit`, which is at `i`, when they are a pair. The next unit is read
only when this one is a high surrogate and not the last. -/
def lowAfter (source : List UInt16) (i : ℕ) (unit : UInt16) : Option (Option ℕ) :=
  if highSurrogate unit.toNat && decide (i + 1 < source.length) then
    source[i + 1]?.map fun next => if lowSurrogate next.toNat then some next.toNat else none
  else some none

/-- The loop of `utf16_to_utf8` from unit `i` on: whether it succeeds, and the buffer. -/
def utf16Steps (source : List UInt16) : ℕ → ℕ → ℕ → List UInt8 → Option (Bool × List UInt8)
  | fuel, i, used, destination =>
    if i < source.length then
      match fuel with
      | 0 => none
      | fuel + 1 => do
        let unit ← source[i]?
        if unit = 0 then
          let destination ← store destination 0 0
          some (false, destination)
        else
          let (point, i) :=
            match ← lowAfter source i unit with
            | some next => (pairPoint unit.toNat next, i + 1)
            | none => (unit.toNat, i)
          match ← putBuffer (encodedLength point) point used destination with
          | none =>
            let destination ← store destination 0 0
            some (false, destination)
          | some (used, destination) => utf16Steps source fuel (i + 1) used destination
    else do
      let destination ← store destination used 0
      some (true, destination)

/-- `utf16_to_utf8` into the buffer `destination`. -/
def utf16ToUtf8Buffer (source : List UInt16) (destination : List UInt8) :
    Option (Bool × List UInt8) :=
  if destination.length = 0 then some (false, destination)
  else do
    let destination ← store destination 0 0
    utf16Steps source source.length 0 0 destination

/-- The loop over the continuation bytes, from byte `i` of the sequence at `offset` on. -/
def continuationSteps (source : List UInt8) (offset : ℕ) : ℕ → ℕ → ℕ → Option (Option ℕ)
  | 0, _, point => some (some point)
  | following + 1, i, point => do
    let byte ← byteAt source (offset + i)
    if byte &&& 0xC0 ≠ 0x80 then some none
    else continuationSteps source offset following (i + 1) (point * 2 ^ 6 + (byte &&& 0x3F).toNat)

/-- The loop of `utf8_to_utf16` from byte `offset` on: whether it succeeds, `count` and the
buffer. -/
def utf8Steps (source : List UInt8) :
    ℕ → ℕ → Bool → ℕ → List UInt16 → Option (Bool × ℕ × List UInt16)
  | fuel, offset, afterLoneHigh, count, destination => do
    let lead ← byteAt source offset
    if lead = 0 then some (true, count, destination)
    else
      match fuel with
      | 0 => none
      | fuel + 1 =>
        match leadByte lead with
        | none => some (false, count, destination)
        | some (following, bits, minimum) =>
          match ← continuationSteps source offset following 1 bits with
          | none => some (false, count, destination)
          | some point =>
            if point < minimum ∨ point > 0x10FFFF then some (false, count, destination)
            else if afterLoneHigh && lowSurrogate point then some (false, count, destination)
            else
              let offset := offset + (following + 1)
              if point ≥ 0x10000 then
                if destination.length - count < 2 then some (false, count, destination)
                else do
                  let destination ← store destination count
                    (UInt16.ofNat (0xD800 + (point - 0x10000) / 2 ^ 10))
                  let destination ← store destination (count + 1)
                    (UInt16.ofNat (0xDC00 + (point - 0x10000) % 2 ^ 10))
                  utf8Steps source fuel offset (highSurrogate point) (count + 2) destination
              else if destination.length - count < 1 then some (false, count, destination)
              else do
                let destination ← store destination count (UInt16.ofNat point)
                utf8Steps source fuel offset (highSurrogate point) (count + 1) destination

/-- `utf8_to_utf16` into the buffer `destination`: whether it succeeds, `count` and the buffer. -/
def utf8ToUtf16Buffer (source : List UInt8) (destination : List UInt16) :
    Option (Bool × ℕ × List UInt16) :=
  utf8Steps source source.length 0 false 0 destination

/-- The string in a buffer: the bytes before the first null. -/
def cstring (buffer : List UInt8) : List UInt8 := buffer.takeWhile (· ≠ 0)

/-! ## Writing to a buffer -/

theorem store_append {α : Type} (out rest : List α) (old value : α) :
    store (out ++ old :: rest) out.length value = some (out ++ value :: rest) := by
  rw [store, if_pos (by rw [List.length_append, List.length_cons]; omega),
    List.set_append_right _ _ (Nat.le_refl _), Nat.sub_self, List.set_cons_zero]

/-- The continuation bytes of a code point, `following` of them. -/
def continuations : ℕ → ℕ → List UInt8
  | 0, _ => []
  | following + 1, point =>
    continuations following (point / 64) ++ [UInt8.ofNat (0x80 + point % 64)]

theorem mark_or : ∀ x < 64, 0x80 ||| x = 0x80 + x := by decide

variable {hole out : List UInt8} {point capacity taken : ℕ} {unit : UInt16} {rest : List UInt16}

/-- The loop of `put` writes the continuation bytes, last one first. -/
theorem putContinuations_eq (out : List UInt8) (first : UInt8) (following point : ℕ)
    (hhole : hole.length = following) (rest : List UInt8) :
    putContinuations out.length following point (out ++ first :: (hole ++ rest)) =
      some (point / 64 ^ following,
        out ++ first :: (continuations following point ++ rest)) := by
  induction following generalizing point hole rest with
  | zero =>
    obtain rfl := List.length_eq_zero_iff.mp hhole
    rw [putContinuations, Nat.pow_zero, Nat.div_one]
    rfl
  | succ following ih =>
    rcases List.eq_nil_or_concat hole with rfl | ⟨hole, old, rfl⟩
    · cases hhole
    · have hlength : hole.length = following := by simpa using hhole
      have hbyte : 0x80 ||| point &&& 0x3F = 0x80 + point % 64 := by
        rw [Nat.and_two_pow_sub_one_eq_mod point 6]
        exact mark_or _ (Nat.mod_lt _ (by decide))
      have hshift : point >>> 6 = point / 64 := Nat.shiftRight_eq_div_pow point 6
      have hat : out.length + (following + 1) = (out ++ first :: hole).length := by
        rw [List.length_append, List.length_cons, hlength]
      have hsplit : out ++ first :: (hole.concat old ++ rest) =
          (out ++ first :: hole) ++ old :: rest := by simp
      have hjoin (value : UInt8) : (out ++ first :: hole) ++ value :: rest =
          out ++ first :: (hole ++ value :: rest) := by simp
      rw [putContinuations, hat, hsplit, store_append, Option.bind_eq_bind, Option.bind_some,
        hjoin, ih _ hlength, hshift, hbyte, Nat.div_div_eq_div_mul, ← Nat.pow_succ', continuations,
        List.append_assoc, List.singleton_append]

/-- The bytes of a code point: the lead byte and the continuation bytes. -/
theorem bytesOf_eq (hle : point ≤ 0x10FFFF) :
    bytesOf point =
      UInt8.ofNat (leadMark (encodedLength point) ||| point / 64 ^ (encodedLength point - 1)) ::
        continuations (encodedLength point - 1) point := by
  have htwo : ∀ x < 32, 0xC0 ||| x = 0xC0 + x := by decide
  have hthree : ∀ x < 16, 0xE0 ||| x = 0xE0 + x := by decide
  have hfour : ∀ x < 8, 0xF0 ||| x = 0xF0 + x := by decide
  rw [bytesOf, encodedLength]
  split
  · simp [encodePoint, leadMark, continuations]
  split
  · simp [encodePoint, leadMark, continuations, htwo (point / 64) (by omega)]
  split
  · simp [encodePoint, leadMark, continuations, hthree (point / 4096) (by omega)]
  · simp [encodePoint, leadMark, continuations, hfour (point / 262144) (by omega),
      Nat.div_div_eq_div_mul]

/-- **`put`** writes the bytes of the code point, when they and a null fit. -/
theorem putBuffer_eq (hle : point ≤ 0x10FFFF) (out hole : List UInt8) :
    (hole.length ≤ encodedLength point ∧
        putBuffer (encodedLength point) point out.length (out ++ hole) = some none) ∨
      encodedLength point < hole.length ∧
        putBuffer (encodedLength point) point out.length (out ++ hole) =
          some (some ((out ++ bytesOf point).length,
            (out ++ bytesOf point) ++ hole.drop (encodedLength point))) := by
  have hroom : (out ++ hole).length - out.length = hole.length := by
    rw [List.length_append, Nat.add_sub_cancel_left]
  rw [putBuffer, hroom]
  by_cases hfits : hole.length ≤ encodedLength point
  · exact Or.inl ⟨hfits, if_pos hfits⟩
  · right
    have hpos : 1 ≤ encodedLength point := by
      rw [encodedLength]
      split
      · decide
      split
      · decide
      split <;> decide
    refine ⟨Nat.lt_of_not_le hfits, ?_⟩
    rw [if_neg hfits]
    cases hole with
    | nil => exact absurd (Nat.zero_le _) hfits
    | cons first hole =>
      -- the hole: the lead byte, the continuation bytes, and what is left
      have hlength : (hole.take (encodedLength point - 1)).length = encodedLength point - 1 := by
        rw [List.length_take]
        rw [List.length_cons] at hfits
        omega
      have hsplit : hole = hole.take (encodedLength point - 1) ++
          hole.drop (encodedLength point - 1) := (List.take_append_drop _ _).symm
      have hdrop : (first :: hole).drop (encodedLength point) =
          hole.drop (encodedLength point - 1) := by
        conv_lhs => rw [show encodedLength point = encodedLength point - 1 + 1 by omega]
        rw [List.drop_succ_cons]
      rw [hdrop]
      generalize hole.drop (encodedLength point - 1) = rest at hsplit ⊢
      generalize hole.take (encodedLength point - 1) = middle at hlength hsplit
      subst hsplit
      rw [putContinuations_eq out first _ point hlength rest, Option.bind_eq_bind,
        Option.bind_some]
      dsimp only
      rw [store_append, Option.bind_eq_bind, Option.bind_some, ← List.cons_append, ← bytesOf_eq hle,
        List.length_append, length_bytesOf, List.append_assoc]

/-! ## `utf16_to_utf8` -/

/-- What the loop leaves: a string, or the empty one. -/
def Leaves (capacity : ℕ) (result : Option (List UInt8)) (call : Option (Bool × List UInt8)) :
    Prop :=
  ∃ ok destination, call = some (ok, destination) ∧ destination.length = capacity ∧
    match result with
    | none => ok = false ∧ ∃ rest, destination = 0 :: rest
    | some out => ok = true ∧ ∃ rest, destination = out ++ 0 :: rest

theorem leaves_none (hcapacity : 0 < capacity) {destination : List UInt8}
    (hlength : destination.length = capacity) :
    Leaves capacity none ((store destination 0 0).bind fun destination =>
      some (false, destination)) := by
  cases destination with
  | nil => exact absurd hlength (Nat.ne_of_lt hcapacity)
  | cons first rest =>
    rw [show store (first :: rest) 0 0 = some (0 :: rest) from store_append [] rest first 0]
    exact ⟨false, 0 :: rest, rfl, hlength, rfl, rest, rfl⟩

/-- One code point is put into the buffer, and the rest follows. -/
theorem leaves_putBuffer (hle : point ≤ 0x10FFFF) (hcapacity : out.length + hole.length = capacity)
    (hout : out.length < capacity) (loop : List UInt8 → Option (List UInt8))
    (steps : ℕ → List UInt8 → Option (Bool × List UInt8))
    (h : ∀ out hole, out.length + hole.length = capacity → out.length < capacity →
      Leaves capacity (loop out) (steps out.length (out ++ hole))) :
    Leaves capacity
      (match putPoint capacity point out with
        | none => none
        | some out => loop out)
      ((putBuffer (encodedLength point) point out.length (out ++ hole)).bind fun put =>
        match put with
        | none => (store (out ++ hole) 0 0).bind fun destination => some (false, destination)
        | some (used, destination) => steps used destination) := by
  rcases putBuffer_eq hle out hole with ⟨hfull, hput⟩ | ⟨hfits, hput⟩
  · rw [hput, putPoint, if_pos (by omega)]
    exact leaves_none (by omega) (by rw [List.length_append, hcapacity])
  · rw [hput, putPoint, if_neg (by omega)]
    refine h _ _ ?_ ?_
    · rw [List.length_append, ← bytesOf, length_bytesOf, List.length_drop]
      omega
    · rw [List.length_append, ← bytesOf, length_bytesOf]
      omega

theorem getElem?_length {α : Type*} (before : List α) (unit : α) (rest : List α) :
    (before ++ unit :: rest)[before.length]? = some unit := by
  rw [List.getElem?_append_right (Nat.le_refl _), Nat.sub_self, List.getElem?_cons_zero]

theorem getElem?_length_succ (before : List UInt16) (unit next : UInt16) (tail : List UInt16) :
    (before ++ unit :: next :: tail)[before.length + 1]? = some next := by
  rw [List.getElem?_append_right (Nat.le_add_right _ _), Nat.add_sub_cancel_left]
  rfl

/-- The first code point of a UTF-16 string, and how many units it takes. -/
inductive FirstPoint (unit : UInt16) : List UInt16 → ℕ → ℕ → Prop
  | pair (next : UInt16) (tail : List UInt16)
      (hpair : (highSurrogate unit.toNat && lowSurrogate next.toNat) = true) :
      FirstPoint unit (next :: tail) (pairPoint unit.toNat next.toNat) 2
  | single (rest : List UInt16)
      (hnone : ∀ next ∈ rest.head?, (highSurrogate unit.toNat && lowSurrogate next.toNat) = false) :
      FirstPoint unit rest unit.toNat 1

theorem exists_firstPoint (unit : UInt16) (rest : List UInt16) :
    ∃ point taken, FirstPoint unit rest point taken := by
  cases rest with
  | nil => exact ⟨_, _, .single [] fun next hnext => nomatch hnext⟩
  | cons next tail =>
    cases hpair : highSurrogate unit.toNat && lowSurrogate next.toNat with
    | true => exact ⟨_, _, .pair next tail hpair⟩
    | false =>
      refine ⟨_, _, .single (next :: tail) fun other hother => ?_⟩
      obtain rfl := Option.some.inj hother
      exact hpair

theorem FirstPoint.le (h : FirstPoint unit rest point taken) : point ≤ 0x10FFFF := by
  cases h with
  | pair next tail hpair =>
    obtain ⟨hhigh, hlow⟩ := Bool.and_eq_true_iff.mp hpair
    exact (pairPoint_bounds hhigh hlow).2
  | single _ hnone =>
    have := unit.toNat_lt
    omega

/-- The loop on lists puts the first code point and goes on behind it. -/
theorem utf16Loop_unit (hunit : unit ≠ 0) (h : FirstPoint unit rest point taken) (capacity : ℕ)
    (out : List UInt8) :
    utf16Loop capacity (unit :: rest) out =
      match putPoint capacity point out with
      | none => none
      | some out => utf16Loop capacity (rest.drop (taken - 1)) out := by
  cases h with
  | pair next tail hpair =>
    rw [utf16Loop, if_neg hunit, if_pos hpair]
    rfl
  | single _ hnone =>
    cases rest with
    | nil =>
      rw [utf16Loop, if_neg hunit]
      cases putPoint capacity unit.toNat out with
      | none => rfl
      | some out => rfl
    | cons next tail =>
      rw [utf16Loop, if_neg hunit, hnone next rfl, if_neg Bool.false_ne_true]
      rfl

theorem utf16Steps_unit (before : List UInt16) (hunit : unit ≠ 0)
    (h : FirstPoint unit rest point taken) (fuel used : ℕ) (destination : List UInt8) :
    utf16Steps (before ++ unit :: rest) (fuel + 1) before.length used destination =
      (putBuffer (encodedLength point) point used destination).bind fun put =>
        match put with
        | none => (store destination 0 0).bind fun destination => some (false, destination)
        | some (used, destination) =>
          utf16Steps (before ++ unit :: rest) fuel (before.length + taken) used destination := by
  have hin : before.length < (before ++ unit :: rest).length := by
    rw [List.length_append, List.length_cons]
    omega
  rw [utf16Steps, if_pos hin]
  dsimp only
  rw [getElem?_length, Option.bind_eq_bind, Option.bind_some, if_neg hunit]
  -- a pair of surrogates, or a unit that stands alone
  cases h with
  | pair next tail hpair =>
    obtain ⟨hhigh, hlow⟩ := Bool.and_eq_true_iff.mp hpair
    have hlast : before.length + 1 < (before ++ unit :: next :: tail).length := by
      rw [List.length_append, List.length_cons, List.length_cons]
      omega
    have hlowAfter : lowAfter (before ++ unit :: next :: tail) before.length unit =
        some (some next.toNat) := by
      rw [lowAfter, hhigh, Bool.true_and, if_pos (decide_eq_true hlast), getElem?_length_succ,
        Option.map_some, if_pos hlow]
    rw [hlowAfter]
    rfl
  | single _ hnone =>
    have hlowAfter : lowAfter (before ++ unit :: rest) before.length unit = some none := by
      rw [lowAfter]
      cases rest with
      | nil =>
        rw [List.length_append, List.length_singleton, decide_eq_false (Nat.lt_irrefl _),
          Bool.and_false, if_neg Bool.false_ne_true]
      | cons next tail =>
        split
        · rename_i hhigh
          have hlow := hnone next rfl
          rw [(Bool.and_eq_true_iff.mp hhigh).1, Bool.true_and] at hlow
          rw [getElem?_length_succ, Option.map_some, hlow, if_neg Bool.false_ne_true]
        · rfl
    rw [hlowAfter]
    rfl

/-- The terminating null is written at the end. -/
theorem utf16Steps_nil (source : List UInt16) (fuel : ℕ)
    (hcapacity : out.length + hole.length = capacity) (hout : out.length < capacity) :
    Leaves capacity (some out) (utf16Steps (source ++ []) fuel source.length out.length
      (out ++ hole)) := by
  cases hole with
  | nil => exact absurd hcapacity (Nat.ne_of_lt hout)
  | cons old rest =>
    unfold utf16Steps
    rw [List.append_nil, if_neg (Nat.lt_irrefl _), store_append]
    refine ⟨true, out ++ 0 :: rest, rfl, ?_, rfl, rest, rfl⟩
    rw [List.length_append]
    exact hcapacity

/-- **The loop of `utf16_to_utf8`** on the buffers is the one on lists. -/
theorem utf16Steps_leaves (before : List UInt16) {fuel : ℕ} (hfuel : rest.length ≤ fuel)
    (hcapacity : out.length + hole.length = capacity) (hout : out.length < capacity) :
    Leaves capacity (utf16Loop capacity rest out)
      (utf16Steps (before ++ rest) fuel before.length out.length (out ++ hole)) := by
  induction fuel generalizing before rest out hole with
  | zero =>
    obtain rfl := List.length_eq_zero_iff.mp (Nat.le_zero.mp hfuel)
    exact utf16Steps_nil before 0 hcapacity hout
  | succ fuel ih =>
    cases rest with
    | nil => exact utf16Steps_nil before (fuel + 1) hcapacity hout
    | cons unit rest =>
      by_cases hunit : unit = 0
      · -- a null ends the call, and the string is emptied
        have hloop : utf16Loop capacity (unit :: rest) out = none := by
          cases rest with
          | nil => rw [utf16Loop, if_pos hunit]
          | cons next tail => rw [utf16Loop, if_pos hunit]
        have hin : before.length < (before ++ unit :: rest).length := by
          rw [List.length_append, List.length_cons]
          omega
        rw [hloop, utf16Steps, if_pos hin]
        dsimp only
        rw [getElem?_length, Option.bind_eq_bind, Option.bind_some, if_pos hunit]
        exact leaves_none (by omega) (by rw [List.length_append, hcapacity])
      · obtain ⟨point, taken, hfirst⟩ := exists_firstPoint unit rest
        rw [utf16Loop_unit hunit hfirst, utf16Steps_unit before hunit hfirst]
        refine leaves_putBuffer hfirst.le hcapacity hout _ _ fun out hole hcapacity hout => ?_
        -- the units behind the code point
        have hbehind : ∃ skipped, before ++ unit :: rest = skipped ++ rest.drop (taken - 1) ∧
            before.length + taken = skipped.length ∧ (rest.drop (taken - 1)).length ≤ fuel := by
          rw [List.length_cons] at hfuel
          cases hfirst with
          | pair next tail hpair =>
            refine ⟨before ++ [unit, next], ?_, ?_, ?_⟩
            · rw [List.append_assoc]
              rfl
            · rw [List.length_append]
              rfl
            · rw [List.length_drop]
              rw [List.length_cons] at hfuel ⊢
              omega
          | single _ hnone =>
            refine ⟨before ++ [unit], ?_, ?_, ?_⟩
            · rw [List.append_assoc]
              rfl
            · rw [List.length_append]
              rfl
            · rw [List.length_drop]
              omega
        obtain ⟨skipped, hsource, hlength, hfuel⟩ := hbehind
        rw [hsource, hlength]
        exact ih skipped hfuel hcapacity hout

/-- **`utf16_to_utf8` on buffers**: no access is outside, and the string in the buffer is the
result, or empty. -/
theorem utf16ToUtf8Buffer_spec (source : List UInt16) {destination : List UInt8}
    (hcapacity : destination ≠ []) :
    Leaves destination.length (utf16ToUtf8 source destination.length)
      (utf16ToUtf8Buffer source destination) := by
  cases destination with
  | nil => exact absurd rfl hcapacity
  | cons first rest =>
    have hlength : (first :: rest).length ≠ 0 := Nat.succ_ne_zero _
    rw [utf16ToUtf8, utf16ToUtf8Buffer, if_neg hlength, if_neg hlength,
      show store (first :: rest) 0 0 = some (0 :: rest) from store_append [] rest first 0]
    have hnone : ([] : List UInt8).length + (0 :: rest).length = (first :: rest).length :=
      Nat.zero_add _
    exact utf16Steps_leaves [] (Nat.le_refl _) hnone (Nat.succ_pos _)

/-! ## `utf8_to_utf16` -/

theorem byteAt_length (before : List UInt8) (byte : UInt8) (rest : List UInt8) :
    byteAt (before ++ byte :: rest) before.length = some byte := by
  rw [byteAt, List.append_assoc, List.getElem?_append_right (Nat.le_refl _), Nat.sub_self]
  rfl

theorem byteAt_end (before : List UInt8) : byteAt (before ++ []) before.length = some 0 := by
  rw [byteAt, List.append_nil, List.getElem?_append_right (Nat.le_refl _), Nat.sub_self]
  rfl

/-- The loop over the continuation bytes stops at the terminating null. -/
theorem continuationSteps_eq {offset i : ℕ} {before : List UInt8} (hat : offset + i = before.length)
    (tail : List UInt8) (following point : ℕ) :
    continuationSteps (before ++ tail) offset following i point =
      some ((continuationBytes following point tail).map Prod.fst) := by
  induction following generalizing i before tail point with
  | zero => rfl
  | succ following ih =>
    rw [continuationSteps, hat]
    cases tail with
    | nil =>
      rw [byteAt_end, Option.bind_eq_bind, Option.bind_some, if_pos (by decide)]
      rfl
    | cons byte tail =>
      rw [byteAt_length, Option.bind_eq_bind, Option.bind_some, continuationBytes]
      split
      · rfl
      · have hnext : offset + (i + 1) = (before ++ [byte]).length := by
          rw [List.length_append, List.length_singleton, ← hat, Nat.add_assoc]
        rw [← ih hnext, List.append_assoc, List.singleton_append]

theorem continuationBytes_split {following point' : ℕ} {tail rest : List UInt8}
    (h : continuationBytes following point tail = some (point', rest)) :
    ∃ taken, tail = taken ++ rest ∧ taken.length = following := by
  induction following generalizing point tail with
  | zero =>
    obtain ⟨-, rfl⟩ := Prod.mk.inj (Option.some.inj h)
    exact ⟨[], rfl, rfl⟩
  | succ following ih =>
    obtain ⟨x, -, tail', rfl, h'⟩ := continuationBytes_succ.mp h
    obtain ⟨taken, rfl, hlength⟩ := ih h'
    exact ⟨_ :: taken, rfl, congrArg (· + 1) hlength⟩

/-- What the loop leaves: the units that were read, or a failure. -/
def Reads (capacity : ℕ) (result : Option (List UInt16))
    (call : Option (Bool × ℕ × List UInt16)) : Prop :=
  ∃ ok count destination, call = some (ok, count, destination) ∧ destination.length = capacity ∧
    match result with
    | none => ok = false
    | some out => ok = true ∧ count = out.length ∧ ∃ rest, destination = out ++ rest

theorem reads_none {count : ℕ} {destination : List UInt16}
    (hlength : destination.length = capacity) :
    Reads capacity none (some (false, count, destination)) :=
  ⟨false, count, destination, rfl, hlength, rfl⟩

/-- The units of a code point are written when they fit, and the rest follows. -/
theorem reads_units {out hole : List UInt16} (hcapacity : (out ++ hole).length = capacity)
    (loop : List UInt16 → Option (List UInt16))
    (steps : ℕ → List UInt16 → Option (Bool × ℕ × List UInt16))
    (h : ∀ out hole, (out ++ hole).length = capacity →
      Reads capacity (loop out) (steps out.length (out ++ hole))) :
    Reads capacity
      (if point ≥ 0x10000 then
        if capacity - out.length < 2 then none
        else
          loop (out ++ [UInt16.ofNat (0xD800 + (point - 0x10000) / 2 ^ 10),
            UInt16.ofNat (0xDC00 + (point - 0x10000) % 2 ^ 10)])
      else if capacity - out.length < 1 then none
      else loop (out ++ [UInt16.ofNat point]))
      (if point ≥ 0x10000 then
        if (out ++ hole).length - out.length < 2 then some (false, out.length, out ++ hole)
        else do
          let destination ← store (out ++ hole) out.length
            (UInt16.ofNat (0xD800 + (point - 0x10000) / 2 ^ 10))
          let destination ← store destination (out.length + 1)
            (UInt16.ofNat (0xDC00 + (point - 0x10000) % 2 ^ 10))
          steps (out.length + 2) destination
      else if (out ++ hole).length - out.length < 1 then some (false, out.length, out ++ hole)
      else do
        let destination ← store (out ++ hole) out.length (UInt16.ofNat point)
        steps (out.length + 1) destination) := by
  have hroom : capacity - out.length = hole.length := by
    rw [← hcapacity, List.length_append, Nat.add_sub_cancel_left]
  rw [hcapacity, hroom]
  split
  · match hole with
    | [] => exact reads_none hcapacity
    | [_] => exact reads_none hcapacity
    | old :: old' :: left =>
      generalize UInt16.ofNat (0xD800 + (point - 0x10000) / 2 ^ 10) = high
      generalize UInt16.ofNat (0xDC00 + (point - 0x10000) % 2 ^ 10) = low
      -- two units, the second one behind the first
      have hsecond := store_append (out ++ [high]) left old' low
      rw [List.length_append, List.length_singleton, List.append_assoc, List.append_assoc,
        List.singleton_append, List.singleton_append] at hsecond
      have htwo : ¬ (old :: old' :: left).length < 2 := Nat.not_lt.mpr (Nat.le_add_left 2 _)
      rw [if_neg htwo, if_neg htwo, store_append, Option.bind_eq_bind, Option.bind_some, hsecond,
        Option.bind_some]
      have hnext := h (out ++ [high, low]) left (by simpa using hcapacity)
      rw [List.length_append, List.append_assoc] at hnext
      exact hnext
  · cases hole with
    | nil => exact reads_none hcapacity
    | cons old left =>
      have hone : ¬ (old :: left).length < 1 := Nat.not_lt.mpr (Nat.le_add_left 1 _)
      rw [if_neg hone, if_neg hone, store_append, Option.bind_eq_bind, Option.bind_some]
      have hnext := h (out ++ [UInt16.ofNat point]) left (by simpa using hcapacity)
      rw [List.length_append, List.append_assoc] at hnext
      exact hnext

/-- **The loop of `utf8_to_utf16`** on the buffers is the one on lists. -/
theorem utf8Steps_reads (before : List UInt8) {rest : List UInt8} (hnull : 0 ∉ rest) {fuel : ℕ}
    (hfuel : rest.length ≤ fuel) (afterLoneHigh : Bool) {out hole : List UInt16}
    (hcapacity : (out ++ hole).length = capacity) :
    Reads capacity (utf8Loop capacity fuel rest afterLoneHigh out)
      (utf8Steps (before ++ rest) fuel before.length afterLoneHigh out.length (out ++ hole)) := by
  induction fuel generalizing before rest afterLoneHigh out hole with
  | zero =>
    obtain rfl := List.length_eq_zero_iff.mp (Nat.le_zero.mp hfuel)
    rw [utf8Steps, byteAt_end]
    exact ⟨true, out.length, out ++ hole, rfl, hcapacity, rfl, rfl, hole, rfl⟩
  | succ fuel ih =>
    cases rest with
    | nil =>
      rw [utf8Steps, byteAt_end]
      exact ⟨true, out.length, out ++ hole, rfl, hcapacity, rfl, rfl, hole, rfl⟩
    | cons lead rest =>
      have hlead : lead ≠ 0 := fun h => hnull (h ▸ List.mem_cons_self)
      rw [utf8Steps, byteAt_length, Option.bind_eq_bind, Option.bind_some, if_neg hlead, utf8Loop]
      dsimp only
      cases hannounced : leadByte lead with
      | none => exact reads_none hcapacity
      | some announced =>
        obtain ⟨following, bits, minimum⟩ := announced
        have hnext : before.length + 1 = (before ++ [lead]).length := by
          rw [List.length_append]
          rfl
        have hcontinuation := continuationSteps_eq hnext rest following bits
        rw [List.append_assoc, List.singleton_append] at hcontinuation
        dsimp only
        rw [hcontinuation, Option.bind_eq_bind, Option.bind_some]
        cases htail : continuationBytes following bits rest with
        | none => exact reads_none hcapacity
        | some read =>
          obtain ⟨point, behind⟩ := read
          -- the loop goes on behind the sequence, with what was written before it
          obtain ⟨taken, rfl, hlength⟩ := continuationBytes_split htail
          have hbehind (out hole : List UInt16) (hcapacity : (out ++ hole).length = capacity) :
              Reads capacity (utf8Loop capacity fuel behind (highSurrogate point) out)
                (utf8Steps (before ++ lead :: (taken ++ behind)) fuel
                  (before.length + (following + 1)) (highSurrogate point) out.length
                  (out ++ hole)) := by
            have hskip : before ++ lead :: (taken ++ behind) =
                before ++ lead :: taken ++ behind := by
              rw [List.append_assoc, List.cons_append]
            have hoffset : before.length + (following + 1) = (before ++ lead :: taken).length := by
              rw [List.length_append, List.length_cons, hlength]
            rw [hskip, hoffset]
            refine ih _ (fun h => hnull ?_) ?_ _ hcapacity
            · exact List.mem_cons_of_mem _ (List.mem_append_right _ h)
            · rw [List.length_cons, List.length_append] at hfuel
              omega
          rw [Option.map_some]
          dsimp only
          split
          · exact reads_none hcapacity
          split
          · exact reads_none hcapacity
          · exact reads_units hcapacity _ _ hbehind

/-- **`utf8_to_utf16` on buffers**: no access is outside, and the units in the buffer are the
result. -/
theorem utf8ToUtf16Buffer_spec {source : List UInt8} (hnull : 0 ∉ source)
    (destination : List UInt16) :
    Reads destination.length (utf8ToUtf16 source destination.length)
      (utf8ToUtf16Buffer source destination) := by
  have hnone : (([] : List UInt16) ++ destination).length = destination.length := rfl
  exact utf8Steps_reads [] hnull (Nat.le_refl _) false hnone

/-! ## Both ways -/

theorem cstring_append (hnull : 0 ∉ out) (rest : List UInt8) :
    cstring (out ++ 0 :: rest) = out := by
  rw [cstring, List.takeWhile_append_of_pos]
  · rw [List.takeWhile_cons_of_neg (by decide), List.append_nil]
  · intro byte hbyte
    exact decide_eq_true fun h => hnull (h ▸ hbyte)

/-- A call that succeeded has left the spelling. -/
theorem utf16ToUtf8Buffer_eq_true {source : List UInt16} {buffer after : List UInt8}
    (h : utf16ToUtf8Buffer source buffer = some (true, after)) :
    0 ∉ source ∧ ∃ rest, after = encoding source ++ 0 :: rest := by
  have hbuffer : buffer ≠ [] := by
    rintro rfl
    cases h
  obtain ⟨ok, filled, hcall, -, hresult⟩ := utf16ToUtf8Buffer_spec source hbuffer
  rw [h] at hcall
  cases hcall
  rw [utf16ToUtf8_eq] at hresult
  by_cases hfits : 0 ∉ source ∧ (encoding source).length < buffer.length
  · rw [if_pos hfits] at hresult
    exact ⟨hfits.1, hresult.2⟩
  · rw [if_neg hfits] at hresult
    cases hresult.1

/-- **The conversions are inverse to each other**, on buffers with room for a terminating null: what
`utf16_to_utf8` does with them, and with a buffer of no bytes; that `utf8_to_utf16` reads its
strings back; that `utf8_to_utf16` has no access outside; that `utf16_to_utf8` gives back what
it reads; and so that no two strings are read as the same units. -/
theorem conversions_inverse :
    (∀ (u : List UInt16) (buffer : List UInt8), buffer ≠ [] →
      ∃ ok after, utf16ToUtf8Buffer u buffer = some (ok, after) ∧
        after.length = buffer.length ∧
        (ok = true ↔ 0 ∉ u ∧ (encoding u).length + 1 ≤ buffer.length) ∧
        if ok then ∃ rest, after = encoding u ++ 0 :: rest else ∃ rest, after = 0 :: rest) ∧
    (∀ u, utf16ToUtf8Buffer u [] = some (false, [])) ∧
    (∀ (u : List UInt16) (buffer after : List UInt8),
      utf16ToUtf8Buffer u buffer = some (true, after) →
      ∀ destination : List UInt16, u.length ≤ destination.length →
        ∃ rest, utf8ToUtf16Buffer (cstring after) destination = some (true, u.length, u ++ rest)) ∧
    (∀ s : List UInt8, 0 ∉ s → ∀ destination,
      ∃ ok count after, utf8ToUtf16Buffer s destination = some (ok, count, after) ∧
        after.length = destination.length) ∧
    (∀ s : List UInt8, 0 ∉ s → ∀ destination count after,
      utf8ToUtf16Buffer s destination = some (true, count, after) →
      ∀ buffer : List UInt8, s.length + 1 ≤ buffer.length →
        ∃ filled, utf16ToUtf8Buffer (after.take count) buffer = some (true, filled) ∧
          cstring filled = s) ∧
    ∀ s s' : List UInt8, 0 ∉ s → 0 ∉ s' → ∀ destination destination' count count' after after',
      utf8ToUtf16Buffer s destination = some (true, count, after) →
      utf8ToUtf16Buffer s' destination' = some (true, count', after') →
      after.take count = after'.take count' → s = s' := by
  -- what a successful `utf8_to_utf16` has read
  have hread {s : List UInt8} (hs : 0 ∉ s) {destination : List UInt16} {count : ℕ}
      {after : List UInt16} (h : utf8ToUtf16Buffer s destination = some (true, count, after)) :
      encoding (after.take count) = s := by
    obtain ⟨ok, n, filled, hcall, -, hresult⟩ := utf8ToUtf16Buffer_spec hs destination
    rw [h] at hcall
    cases hcall
    split at hresult
    · cases hresult
    · rename_i result hutf
      obtain ⟨-, rfl, rest, rfl⟩ := hresult
      rw [List.take_left]
      exact encoding_utf8ToUtf16 hutf
  refine ⟨?_, fun u => rfl, ?_, ?_, ?_, ?_⟩
  · intro u buffer hbuffer
    obtain ⟨ok, after, hcall, hlength, hresult⟩ := utf16ToUtf8Buffer_spec u hbuffer
    refine ⟨ok, after, hcall, hlength, ?_⟩
    rw [utf16ToUtf8_eq] at hresult
    by_cases hfits : 0 ∉ u ∧ (encoding u).length < buffer.length
    · rw [if_pos hfits] at hresult
      obtain ⟨rfl, hafter⟩ := hresult
      exact ⟨iff_of_true rfl hfits, hafter⟩
    · rw [if_neg hfits] at hresult
      obtain ⟨rfl, hafter⟩ := hresult
      exact ⟨iff_of_false Bool.false_ne_true hfits, hafter⟩
  · intro u buffer after h destination hroom
    obtain ⟨hu, rest, rfl⟩ := utf16ToUtf8Buffer_eq_true h
    have hnull : 0 ∉ encoding u := zero_mem_encoding.not.mpr hu
    rw [cstring_append hnull]
    obtain ⟨ok, count, filled, hcall, -, hresult⟩ := utf8ToUtf16Buffer_spec hnull destination
    rw [utf8ToUtf16_encoding hroom] at hresult
    obtain ⟨rfl, rfl, rest, rfl⟩ := hresult
    exact ⟨rest, hcall⟩
  · intro s hs destination
    obtain ⟨ok, count, after, hcall, hlength, -⟩ := utf8ToUtf16Buffer_spec hs destination
    exact ⟨ok, count, after, hcall, hlength⟩
  · intro s hs destination count after h buffer hroom
    have hencoding := hread hs h
    have hu : 0 ∉ after.take count := zero_mem_encoding.not.mp (hencoding ▸ hs)
    have hbuffer : buffer ≠ [] := List.length_pos_iff.mp (by omega)
    obtain ⟨ok, filled, hcall, -, hresult⟩ := utf16ToUtf8Buffer_spec (after.take count) hbuffer
    rw [utf16ToUtf8_eq, hencoding, if_pos ⟨hu, hroom⟩] at hresult
    obtain ⟨rfl, rest, rfl⟩ := hresult
    exact ⟨_, hcall, cstring_append hs rest⟩
  · intro s s' hs hs' destination destination' count count' after after' h h' hsame
    rw [← hread hs h, hsame, hread hs' h']

/-- A name with a character beyond the first 16 bits, there and back. -/
theorem conversions_inverse_smile :
    ∃ rest, utf8ToUtf16Buffer [0x41, 0xF0, 0x9F, 0x98, 0x80] [1, 2, 3, 4] =
      some (true, 3, [0x41, 0xD83D, 0xDE00] ++ rest) :=
  conversions_inverse.2.2.1 [0x41, 0xD83D, 0xDE00] [1, 2, 3, 4, 5, 6, 7]
    [0x41, 0xF0, 0x9F, 0x98, 0x80, 0, 7] (by decide +kernel) [1, 2, 3, 4] (by decide)

/-- A buffer without room for the terminating null is left as it is. -/
theorem utf16ToUtf8Buffer_no_room :
    utf16ToUtf8Buffer [0x41] [] = some (false, []) ∧ ¬ ∃ rest : List UInt8, [] = 0 :: rest :=
  ⟨rfl, fun ⟨_, h⟩ => nomatch h⟩

end ShirleysOS.Text
