import ShirleysOS.Text.Utf
import Mathlib.Data.List.Basic

/-!
# The two spellings of a name

A name is a list of code points. In UTF-16 a code point is one unit or a pair of surrogates, in
UTF-8 one to four bytes; a surrogate that is not part of a pair is a code point of its own. The
conversions go from one spelling to the other through the code points: `utf16_to_utf8` takes the
longest reading, so that a pair never stands for two code points, and `utf8_to_utf16` refuses the
code points that UTF-16 would spell as a pair.
-/

namespace ShirleysOS.Text

/-! ## Code points and units -/

/-- The code point of a pair of surrogates. -/
def pairPoint (high low : ℕ) : ℕ := 0x10000 + (high - 0xD800) * 2 ^ 10 + (low - 0xDC00)

/-- The code points of a UTF-16 string. -/
def points : List UInt16 → List ℕ
  | [] => []
  | [unit] => [unit.toNat]
  | unit :: next :: rest =>
    if highSurrogate unit.toNat && lowSurrogate next.toNat then
      pairPoint unit.toNat next.toNat :: points rest
    else unit.toNat :: points (next :: rest)

/-- The units of a code point. -/
def unitsOf (point : ℕ) : List UInt16 :=
  if point ≥ 0x10000 then
    [UInt16.ofNat (0xD800 + (point - 0x10000) / 2 ^ 10),
      UInt16.ofNat (0xDC00 + (point - 0x10000) % 2 ^ 10)]
  else [UInt16.ofNat point]

def units (names : List ℕ) : List UInt16 := names.flatMap unitsOf

/-- The bytes of a code point. -/
def bytesOf (point : ℕ) : List UInt8 := encodePoint (encodedLength point) point

def encode (names : List ℕ) : List UInt8 := names.flatMap bytesOf

/-- The UTF-8 spelling of a UTF-16 string. -/
def encoding (source : List UInt16) : List UInt8 := encode (points source)

/-- No low surrogate follows a high one, and none comes first when a high one went before. -/
def Separate : Bool → List ℕ → Prop
  | _, [] => True
  | afterHigh, point :: rest =>
    ¬ (afterHigh = true ∧ lowSurrogate point = true) ∧ Separate (highSurrogate point) rest

variable {afterHigh : Bool} {names : List ℕ} {point n capacity fuel : ℕ} {source rest : List UInt8}

theorem Separate.weaken (h : Separate afterHigh names) : Separate false names := by
  cases names with
  | nil => trivial
  | cons point rest => exact ⟨fun hp => Bool.false_ne_true hp.1, h.2⟩

theorem highSurrogate_iff {unit : ℕ} :
    highSurrogate unit = true ↔ 0xD800 ≤ unit ∧ unit ≤ 0xDBFF := by
  rw [highSurrogate, Bool.and_eq_true, decide_eq_true_iff, decide_eq_true_iff]

theorem lowSurrogate_iff {unit : ℕ} :
    lowSurrogate unit = true ↔ 0xDC00 ≤ unit ∧ unit ≤ 0xDFFF := by
  rw [lowSurrogate, Bool.and_eq_true, decide_eq_true_iff, decide_eq_true_iff]

/-- A pair of surrogates is read back from its code point. -/
theorem unitsOf_pairPoint {high low : UInt16} (hhigh : highSurrogate high.toNat = true)
    (hlow : lowSurrogate low.toNat = true) :
    unitsOf (pairPoint high.toNat low.toNat) = [high, low] := by
  rw [highSurrogate_iff] at hhigh
  rw [lowSurrogate_iff] at hlow
  have hpoint : pairPoint high.toNat low.toNat - 0x10000 =
      (high.toNat - 0xD800) * 2 ^ 10 + (low.toNat - 0xDC00) := by
    unfold pairPoint
    omega
  rw [unitsOf, if_pos (by unfold pairPoint; omega), hpoint,
    show 0xD800 + ((high.toNat - 0xD800) * 2 ^ 10 + (low.toNat - 0xDC00)) / 2 ^ 10 = high.toNat by
      omega,
    show 0xDC00 + ((high.toNat - 0xD800) * 2 ^ 10 + (low.toNat - 0xDC00)) % 2 ^ 10 = low.toNat by
      omega, UInt16.ofNat_toNat, UInt16.ofNat_toNat]

theorem unitsOf_toNat (unit : UInt16) : unitsOf unit.toNat = [unit] := by
  have hlt : unit.toNat < 2 ^ 16 := unit.toNat_lt
  rw [unitsOf, if_neg (by omega), UInt16.ofNat_toNat]

/-- **UTF-16 is read back from its code points.** -/
theorem units_points (source : List UInt16) : units (points source) = source := by
  induction source using points.induct with
  | case1 => rfl
  | case2 unit => exact (List.append_nil _).trans (unitsOf_toNat unit)
  | case3 unit next rest hpair ih =>
    rw [Bool.and_eq_true] at hpair
    rw [points, if_pos (Bool.and_eq_true _ _ ▸ hpair), units, List.flatMap_cons,
      unitsOf_pairPoint hpair.1 hpair.2]
    exact congrArg (fun l => unit :: next :: l) ih
  | case4 unit next rest hpair ih =>
    rw [points, if_neg hpair, units, List.flatMap_cons, unitsOf_toNat]
    exact congrArg (fun l => unit :: l) ih

theorem pairPoint_bounds {high low : ℕ} (hhigh : highSurrogate high = true)
    (hlow : lowSurrogate low = true) :
    0x10000 ≤ pairPoint high low ∧ pairPoint high low ≤ 0x10FFFF := by
  rw [highSurrogate_iff] at hhigh
  rw [lowSurrogate_iff] at hlow
  unfold pairPoint
  omega

/-- Code points of a UTF-16 string are in the range of Unicode. -/
theorem points_le (source : List UInt16) : ∀ point ∈ points source, point ≤ 0x10FFFF := by
  have hunit (unit : UInt16) : unit.toNat ≤ 0x10FFFF := by
    have := unit.toNat_lt
    omega
  induction source using points.induct with
  | case1 => exact fun point h => nomatch h
  | case2 unit =>
    intro point hpoint
    exact List.mem_singleton.mp hpoint ▸ hunit unit
  | case3 unit next rest hpair ih =>
    rw [points, if_pos hpair]
    rw [Bool.and_eq_true] at hpair
    exact List.forall_mem_cons.mpr ⟨(pairPoint_bounds hpair.1 hpair.2).2, ih⟩
  | case4 unit next rest hpair ih =>
    rw [points, if_neg hpair]
    exact List.forall_mem_cons.mpr ⟨hunit unit, ih⟩

theorem lowSurrogate_of_ge (h : 0x10000 ≤ point) : lowSurrogate point = false := by
  rw [← Bool.not_eq_true, lowSurrogate_iff]
  omega

theorem highSurrogate_of_ge (h : 0x10000 ≤ point) : highSurrogate point = false := by
  rw [← Bool.not_eq_true, highSurrogate_iff]
  omega

/-- The first code point of a UTF-16 string is its first unit, or a pair. -/
theorem Separate.points_cons {next : UInt16} {rest : List UInt16}
    (h : Separate false (points (next :: rest)))
    (hnext : ¬ (afterHigh = true ∧ lowSurrogate next.toNat = true)) :
    Separate afterHigh (points (next :: rest)) := by
  cases rest with
  | nil => exact ⟨hnext, trivial⟩
  | cons next' rest =>
    rw [points] at h ⊢
    split at h
    · rename_i hpair
      rw [if_pos hpair]
      rw [Bool.and_eq_true] at hpair
      refine ⟨fun hlow => ?_, h.2⟩
      rw [lowSurrogate_of_ge (pairPoint_bounds hpair.1 hpair.2).1] at hlow
      exact Bool.false_ne_true hlow.2
    · rename_i hpair
      rw [if_neg hpair]
      exact ⟨hnext, h.2⟩

/-- A pair of surrogates in a UTF-16 string is one code point. -/
theorem separate_points (source : List UInt16) : Separate false (points source) := by
  have hfirst {point : ℕ} : ¬ (false = true ∧ lowSurrogate point = true) := fun h =>
    Bool.false_ne_true h.1
  induction source using points.induct with
  | case1 => trivial
  | case2 unit => exact ⟨hfirst, trivial⟩
  | case3 unit next rest hpair ih =>
    rw [points, if_pos hpair]
    rw [Bool.and_eq_true] at hpair
    refine ⟨hfirst, ?_⟩
    rw [highSurrogate_of_ge (pairPoint_bounds hpair.1 hpair.2).1]
    exact ih
  | case4 unit next rest hpair ih =>
    rw [points, if_neg hpair]
    refine ⟨hfirst, ih.points_cons ?_⟩
    rw [← Bool.and_eq_true]
    exact hpair

/-- A unit that is no pair with the next one is a code point of its own. -/
theorem points_cons_of_not_pair {unit : UInt16} {rest : List UInt16}
    (h : ∀ next ∈ rest.head?,
      ¬ (highSurrogate unit.toNat = true ∧ lowSurrogate next.toNat = true)) :
    points (unit :: rest) = unit.toNat :: points rest := by
  cases rest with
  | nil => rfl
  | cons next rest =>
    rw [points, if_neg]
    rw [Bool.and_eq_true]
    exact h next rfl

theorem toNat_ofNat_unit (h : n < 0x10000) : (UInt16.ofNat n).toNat = n := by
  rw [UInt16.toNat_ofNat']
  exact Nat.mod_eq_of_lt h

/-- The units of a code point beyond the first 16 bits are a pair of surrogates. -/
theorem unitsOf_pair (hge : 0x10000 ≤ point) (hle : point ≤ 0x10FFFF) :
    ∃ high low, unitsOf point = [high, low] ∧ highSurrogate high.toNat = true ∧
      lowSurrogate low.toNat = true ∧ pairPoint high.toNat low.toNat = point := by
  have hhigh : (UInt16.ofNat (0xD800 + (point - 0x10000) / 2 ^ 10)).toNat =
      0xD800 + (point - 0x10000) / 2 ^ 10 := toNat_ofNat_unit (by omega)
  have hlow : (UInt16.ofNat (0xDC00 + (point - 0x10000) % 2 ^ 10)).toNat =
      0xDC00 + (point - 0x10000) % 2 ^ 10 := toNat_ofNat_unit (by omega)
  refine ⟨_, _, if_pos hge, ?_, ?_, ?_⟩
  · rw [hhigh, highSurrogate_iff]
    omega
  · rw [hlow, lowSurrogate_iff]
    omega
  · rw [hhigh, hlow]
    unfold pairPoint
    omega

/-- The first unit of a separate list is no low surrogate that a high one went before. -/
theorem Separate.head_units (h : Separate afterHigh names) (hle : ∀ point ∈ names, point ≤ 0x10FFFF)
    (next : UInt16) (hnext : next ∈ (units names).head?) :
    ¬ (afterHigh = true ∧ lowSurrogate next.toNat = true) := by
  cases names with
  | nil => cases hnext
  | cons point rest =>
    rw [units, List.flatMap_cons] at hnext
    by_cases hge : 0x10000 ≤ point
    · obtain ⟨high, low, hunits, hhigh, -⟩ := unitsOf_pair hge (hle point List.mem_cons_self)
      rw [hunits] at hnext
      cases hnext
      rintro ⟨-, hlow⟩
      rw [highSurrogate_iff] at hhigh
      rw [lowSurrogate_iff] at hlow
      omega
    · rw [unitsOf, if_neg hge] at hnext
      cases hnext
      rw [toNat_ofNat_unit (by omega)]
      exact h.1

/-- **Code points are read back from UTF-16**, when no two of them make a pair. -/
theorem points_units (h : Separate false names) (hle : ∀ point ∈ names, point ≤ 0x10FFFF) :
    points (units names) = names := by
  induction names with
  | nil => rfl
  | cons point rest ih =>
    obtain ⟨hpoint, hrest⟩ := List.forall_mem_cons.mp hle
    rw [units, List.flatMap_cons]
    have hback : points (List.flatMap unitsOf rest) = rest := ih h.2.weaken hrest
    by_cases hge : 0x10000 ≤ point
    · obtain ⟨high, low, hunits, hhigh, hlow, hpair⟩ := unitsOf_pair hge hpoint
      rw [hunits, List.cons_append, List.cons_append, List.nil_append, points,
        if_pos (by rw [hhigh, hlow]; rfl), hpair, hback]
    · have hnat : (UInt16.ofNat point).toNat = point := toNat_ofNat_unit (by omega)
      rw [unitsOf, if_neg hge, List.singleton_append, points_cons_of_not_pair, hback, hnat]
      rw [hnat]
      exact h.2.head_units hrest

/-! ## Code points and bytes -/

theorem length_bytesOf (point : ℕ) : (bytesOf point).length = encodedLength point := by
  rw [bytesOf, encodedLength]
  split
  · rfl
  split
  · rfl
  split
  · rfl
  · rfl

/-- A fact about all bytes is one about the numbers that they are. -/
theorem forall_byte {P : UInt8 → Prop} (h : ∀ n < 256, P (UInt8.ofNat n)) (byte : UInt8) :
    P byte := by
  have hbyte := h byte.toNat byte.toNat_lt
  rwa [UInt8.ofNat_toNat] at hbyte

theorem continuation_ofNat : ∀ x < 64, UInt8.ofNat (0x80 + x) &&& 0xC0 = 0x80 ∧
    (UInt8.ofNat (0x80 + x) &&& 0x3F).toNat = x := by decide

theorem continuation_eq (byte : UInt8) : byte &&& 0xC0 = 0x80 →
    (byte &&& 0x3F).toNat < 64 ∧ byte = UInt8.ofNat (0x80 + (byte &&& 0x3F).toNat) := by
  revert byte
  apply forall_byte
  decide +kernel

theorem continuationBytes_succ {r : ℕ × List UInt8} :
    continuationBytes (n + 1) point source = some r ↔
      ∃ x < 64, ∃ rest, source = UInt8.ofNat (0x80 + x) :: rest ∧
        continuationBytes n (point * 64 + x) rest = some r := by
  constructor
  · intro h
    cases source with
    | nil => cases h
    | cons byte rest =>
      rw [continuationBytes] at h
      split at h
      · cases h
      · rename_i hbyte
        obtain ⟨hlt, heq⟩ := continuation_eq byte (not_not.mp hbyte)
        exact ⟨_, hlt, rest, congrArg (· :: rest) heq, h⟩
  · rintro ⟨x, hx, rest, rfl, h⟩
    obtain ⟨hbyte, hbits⟩ := continuation_ofNat x hx
    rw [continuationBytes, if_neg (not_not.mpr hbyte), hbits]
    exact h

theorem leadByte_one : ∀ bits < 128, leadByte (UInt8.ofNat bits) = some (0, bits, 0) := by decide

theorem leadByte_two :
    ∀ bits < 32, leadByte (UInt8.ofNat (0xC0 + bits)) = some (1, bits, 0x80) := by decide

theorem leadByte_three :
    ∀ bits < 16, leadByte (UInt8.ofNat (0xE0 + bits)) = some (2, bits, 0x800) := by decide

theorem leadByte_four :
    ∀ bits < 8, leadByte (UInt8.ofNat (0xF0 + bits)) = some (3, bits, 0x10000) := by decide

theorem leadByte_cases (lead : UInt8) : ∀ r, leadByte lead = some r →
    (∃ bits < 128, lead = UInt8.ofNat bits ∧ r = (0, bits, 0)) ∨
    (∃ bits < 32, lead = UInt8.ofNat (0xC0 + bits) ∧ r = (1, bits, 0x80)) ∨
    (∃ bits < 16, lead = UInt8.ofNat (0xE0 + bits) ∧ r = (2, bits, 0x800)) ∨
    ∃ bits < 8, lead = UInt8.ofNat (0xF0 + bits) ∧ r = (3, bits, 0x10000) := by
  intro r
  have hcases : lead.toNat < 128 ∨ (∃ bits < 32, lead = UInt8.ofNat (0xC0 + bits)) ∨
      (∃ bits < 16, lead = UInt8.ofNat (0xE0 + bits)) ∨
      (∃ bits < 8, lead = UInt8.ofNat (0xF0 + bits)) ∨ leadByte lead = none := by
    revert lead
    apply forall_byte
    decide +kernel
  intro h
  rcases hcases with hlt | ⟨bits, hlt, rfl⟩ | ⟨bits, hlt, rfl⟩ | ⟨bits, hlt, rfl⟩ | hnone
  · have hone := leadByte_one lead.toNat hlt
    rw [UInt8.ofNat_toNat, h] at hone
    exact Or.inl ⟨lead.toNat, hlt, UInt8.ofNat_toNat.symm, Option.some.inj hone⟩
  · rw [leadByte_two bits hlt] at h
    exact Or.inr (Or.inl ⟨bits, hlt, rfl, (Option.some.inj h).symm⟩)
  · rw [leadByte_three bits hlt] at h
    exact Or.inr (Or.inr (Or.inl ⟨bits, hlt, rfl, (Option.some.inj h).symm⟩))
  · rw [leadByte_four bits hlt] at h
    exact Or.inr (Or.inr (Or.inr ⟨bits, hlt, rfl, (Option.some.inj h).symm⟩))
  · rw [hnone] at h
    cases h

/-- The bytes of a code point are read back. -/
theorem decode_bytesOf (hle : point ≤ 0x10FFFF) (rest : List UInt8) :
    ∃ lead tail following bits minimum, bytesOf point = lead :: tail ∧
      leadByte lead = some (following, bits, minimum) ∧
      continuationBytes following bits (tail ++ rest) = some (point, rest) ∧ minimum ≤ point := by
  have hsix (k : ℕ) : point / 64 ^ k % 64 < 64 := Nat.mod_lt _ (by decide)
  rw [bytesOf, encodedLength]
  split
  · rename_i hlt
    exact ⟨_, _, _, _, _, rfl, leadByte_one point hlt, rfl, Nat.zero_le _⟩
  split
  · refine ⟨_, _, _, _, _, rfl, leadByte_two (point / 64) (by omega), ?_, by omega⟩
    refine continuationBytes_succ.mpr ⟨_, hsix 0, _, rfl, ?_⟩
    rw [continuationBytes, show point / 64 * 64 + point / 64 ^ 0 % 64 = point by omega]
    rfl
  split
  · refine ⟨_, _, _, _, _, rfl, leadByte_three (point / 64 ^ 2) (by omega), ?_, by omega⟩
    refine continuationBytes_succ.mpr ⟨_, hsix 1, _, rfl, ?_⟩
    refine continuationBytes_succ.mpr ⟨_, hsix 0, _, rfl, ?_⟩
    rw [continuationBytes,
      show (point / 64 ^ 2 * 64 + point / 64 ^ 1 % 64) * 64 + point / 64 ^ 0 % 64 = point by omega]
    rfl
  · refine ⟨_, _, _, _, _, rfl, leadByte_four (point / 64 ^ 3) (by omega), ?_, by omega⟩
    refine continuationBytes_succ.mpr ⟨_, hsix 2, _, rfl, ?_⟩
    refine continuationBytes_succ.mpr ⟨_, hsix 1, _, rfl, ?_⟩
    refine continuationBytes_succ.mpr ⟨_, hsix 0, _, rfl, ?_⟩
    rw [continuationBytes,
      show ((point / 64 ^ 3 * 64 + point / 64 ^ 2 % 64) * 64 + point / 64 ^ 1 % 64) * 64 +
        point / 64 ^ 0 % 64 = point by omega]
    rfl

/-- What is read as a code point, in the least number of bytes, is its spelling. -/
theorem bytesOf_of_decode {lead : UInt8} {following bits minimum : ℕ}
    (hlead : leadByte lead = some (following, bits, minimum))
    (htail : continuationBytes following bits source = some (point, rest))
    (hminimum : minimum ≤ point) : lead :: source = bytesOf point ++ rest := by
  rw [bytesOf, encodedLength]
  -- by the lead byte: none to three bytes follow, each with six bits of the point
  rcases leadByte_cases lead _ hlead with ⟨b, hb, rfl, heq⟩ | ⟨b, hb, rfl, heq⟩ |
    ⟨b, hb, rfl, heq⟩ | ⟨b, hb, rfl, heq⟩
  · cases heq
    obtain ⟨rfl, rfl⟩ := Prod.mk.inj (Option.some.inj htail)
    rw [if_pos hb]
    rfl
  · cases heq
    obtain ⟨x, hx, tail₁, rfl, hx'⟩ := continuationBytes_succ.mp htail
    obtain ⟨rfl, rfl⟩ := Prod.mk.inj (Option.some.inj hx')
    rw [if_neg (by omega), if_pos (by omega), encodePoint]
    dsimp only
    rw [show (bits * 64 + x) / 64 = bits by omega, show (bits * 64 + x) / 64 ^ 0 % 64 = x by omega]
    rfl
  · cases heq
    obtain ⟨x, hx, tail₁, rfl, hx'⟩ := continuationBytes_succ.mp htail
    obtain ⟨y, hy, tail₂, rfl, hy'⟩ := continuationBytes_succ.mp hx'
    obtain ⟨rfl, rfl⟩ := Prod.mk.inj (Option.some.inj hy')
    rw [if_neg (by omega), if_neg (by omega), if_pos (by omega), encodePoint]
    dsimp only
    rw [show ((bits * 64 + x) * 64 + y) / 64 ^ 2 = bits by omega,
      show ((bits * 64 + x) * 64 + y) / 64 ^ 1 % 64 = x by omega,
      show ((bits * 64 + x) * 64 + y) / 64 ^ 0 % 64 = y by omega]
    rfl
  · cases heq
    obtain ⟨x, hx, tail₁, rfl, hx'⟩ := continuationBytes_succ.mp htail
    obtain ⟨y, hy, tail₂, rfl, hy'⟩ := continuationBytes_succ.mp hx'
    obtain ⟨z, hz, tail₃, rfl, hz'⟩ := continuationBytes_succ.mp hy'
    obtain ⟨rfl, rfl⟩ := Prod.mk.inj (Option.some.inj hz')
    rw [if_neg (by omega), if_neg (by omega), if_neg (by omega), encodePoint]
    · dsimp only
      rw [show (((bits * 64 + x) * 64 + y) * 64 + z) / 64 ^ 3 = bits by omega,
        show (((bits * 64 + x) * 64 + y) * 64 + z) / 64 ^ 2 % 64 = x by omega,
        show (((bits * 64 + x) * 64 + y) * 64 + z) / 64 ^ 1 % 64 = y by omega,
        show (((bits * 64 + x) * 64 + y) * 64 + z) / 64 ^ 0 % 64 = z by omega]
      rfl
    all_goals omega

/-! ## The loop of `utf16_to_utf8` -/

theorem putPoint_eq (capacity point : ℕ) (out : List UInt8) :
    putPoint capacity point out =
      if out.length + (bytesOf point).length < capacity then some (out ++ bytesOf point)
      else none := by
  rw [putPoint, length_bytesOf]
  by_cases h : out.length + encodedLength point < capacity
  · rw [if_pos h, if_neg (by omega)]
    rfl
  · rw [if_neg h, if_pos (by omega)]

theorem putPoint_bind {out : List UInt8} {zero : Prop} [Decidable zero]
    (loop : List UInt8 → Option (List UInt8))
    (hloop : ∀ out', out'.length < capacity →
      loop out' = if ¬ zero ∧ out'.length + rest.length < capacity then some (out' ++ rest)
        else none) : (match putPoint capacity point out with
      | none => none
      | some out => loop out) =
      if ¬ zero ∧ out.length + (bytesOf point ++ rest).length < capacity then
        some (out ++ (bytesOf point ++ rest)) else none := by
  rw [putPoint_eq, List.length_append]
  by_cases h : out.length + (bytesOf point).length < capacity
  · rw [if_pos h]
    dsimp only
    rw [hloop _ (List.length_append ▸ h), List.length_append, List.append_assoc, Nat.add_assoc]
  · rw [if_neg h, if_neg fun hfits => h (by omega)]

/-- **The loop of `utf16_to_utf8`** succeeds when there is no null and the spelling fits, with the
terminating null. -/
theorem utf16Loop_eq (source : List UInt16) (out : List UInt8) (hout : out.length < capacity) :
    utf16Loop capacity source out =
      if 0 ∉ source ∧ out.length + (encoding source).length < capacity then
        some (out ++ encoding source)
      else none := by
  induction source using points.induct generalizing out with
  | case1 =>
    rw [utf16Loop, if_pos ⟨List.not_mem_nil, hout⟩, encoding, points, encode, List.flatMap_nil,
      List.append_nil]
  | case2 unit =>
    have hsingle : encoding [unit] = bytesOf unit.toNat := by
      rw [encoding, points, encode, List.flatMap_singleton]
    rw [utf16Loop]
    by_cases hzero : unit = 0
    · rw [if_pos hzero, if_neg fun h => h.1 (hzero ▸ List.mem_singleton_self _)]
    · have hnot : 0 ∉ [unit] := fun h => hzero (List.mem_singleton.mp h).symm
      rw [if_neg hzero, hsingle, putPoint_eq]
      exact if_congr (iff_and_self.mpr fun _ => hnot) rfl rfl
  | case3 unit next rest hpair ih =>
    have hsplit : encoding (unit :: next :: rest) =
        bytesOf (pairPoint unit.toNat next.toNat) ++ encoding rest := by
      rw [encoding, points, if_pos hpair, encode, List.flatMap_cons]
      rfl
    -- no half of a pair is the null that ends the text
    have hsurrogates := hpair
    rw [Bool.and_eq_true, highSurrogate_iff, lowSurrogate_iff] at hsurrogates
    have hunit : unit ≠ 0 := by
      rintro rfl
      exact absurd hsurrogates.1.1 (by decide)
    have hnext : next ≠ 0 := by
      rintro rfl
      exact absurd hsurrogates.2.1 (by decide)
    have hmem : 0 ∉ rest ↔ 0 ∉ unit :: next :: rest := by
      rw [List.mem_cons, List.mem_cons, or_iff_right hunit.symm, or_iff_right hnext.symm]
    rw [utf16Loop, if_neg hunit, if_pos hpair, hsplit]
    exact (putPoint_bind _ ih).trans (if_congr (and_congr_left' hmem) rfl rfl)
  | case4 unit next rest hpair ih =>
    have hsplit : encoding (unit :: next :: rest) =
        bytesOf unit.toNat ++ encoding (next :: rest) := by
      rw [encoding, points, if_neg hpair, encode, List.flatMap_cons]
      rfl
    rw [utf16Loop]
    by_cases hunit : unit = 0
    · rw [if_pos hunit, if_neg fun h => h.1 (hunit ▸ List.mem_cons_self)]
    · have hmem : 0 ∉ next :: rest ↔ 0 ∉ unit :: next :: rest := by
        rw [List.mem_cons (b := unit), or_iff_right (Ne.symm hunit)]
      rw [if_neg hunit, if_neg hpair, hsplit]
      exact (putPoint_bind _ ih).trans (if_congr (and_congr_left' hmem) rfl rfl)

/-! ## The loop of `utf8_to_utf16` -/

theorem length_unitsOf (point : ℕ) :
    (unitsOf point).length = if point ≥ 0x10000 then 2 else 1 := by
  rw [unitsOf]
  split <;> rfl

/-- One step of the loop: a code point that is read is appended, when its units fit. -/
theorem utf8Loop_step {lead : UInt8} {following bits minimum : ℕ} (afterLoneHigh : Bool)
    (out : List UInt16) (hlead : leadByte lead = some (following, bits, minimum))
    (htail : continuationBytes following bits source = some (point, rest)) :
    utf8Loop capacity (fuel + 1) (lead :: source) afterLoneHigh out =
      if (minimum ≤ point ∧ point ≤ 0x10FFFF) ∧
          ¬ (afterLoneHigh = true ∧ lowSurrogate point = true) ∧
          out.length + (unitsOf point).length ≤ capacity then
        utf8Loop capacity fuel rest (highSurrogate point) (out ++ unitsOf point)
      else none := by
  rw [utf8Loop, hlead]
  dsimp only
  rw [htail, length_unitsOf, unitsOf]
  dsimp only
  by_cases hrange : point < minimum ∨ point > 0x10FFFF
  · rw [if_pos hrange, if_neg fun h => by omega]
  by_cases hpair : (afterLoneHigh && lowSurrogate point) = true
  · rw [if_neg hrange, if_pos hpair, if_neg]
    rw [Bool.and_eq_true] at hpair
    exact fun h => h.2.1 hpair
  rw [if_neg hrange, if_neg hpair]
  rw [Bool.and_eq_true] at hpair
  by_cases hge : point ≥ 0x10000
  · rw [if_pos hge, if_pos hge, if_pos hge]
    by_cases hfits : out.length + 2 ≤ capacity
    · rw [if_neg (by omega), if_pos ⟨by omega, hpair, hfits⟩]
    · rw [if_pos (by omega), if_neg fun h => hfits h.2.2]
  · rw [if_neg hge, if_neg hge, if_neg hge]
    by_cases hfits : out.length + 1 ≤ capacity
    · rw [if_neg (by omega), if_pos ⟨by omega, hpair, hfits⟩]
    · rw [if_pos (by omega), if_neg fun h => hfits h.2.2]

/-- **The loop reads what is spelled.** -/
theorem utf8Loop_encode {afterLoneHigh : Bool} (hseparate : Separate afterLoneHigh names)
    (hle : ∀ point ∈ names, point ≤ 0x10FFFF) (hfuel : (encode names).length ≤ fuel)
    {out : List UInt16} (hfits : out.length + (units names).length ≤ capacity) :
    utf8Loop capacity fuel (encode names) afterLoneHigh out = some (out ++ units names) := by
  induction names generalizing fuel afterLoneHigh out with
  | nil =>
    have hnil : encode [] = [] := rfl
    rw [hnil, utf8Loop, units, List.flatMap_nil, List.append_nil]
  | cons point rest ih =>
    obtain ⟨hpoint, hrest⟩ := List.forall_mem_cons.mp hle
    obtain ⟨lead, tail, following, bits, minimum, hbytes, hlead, htail, hminimum⟩ :=
      decode_bytesOf hpoint (encode rest)
    have hencode : encode (point :: rest) = lead :: (tail ++ encode rest) := by
      rw [encode, List.flatMap_cons, hbytes]
      rfl
    have hunits : units (point :: rest) = unitsOf point ++ units rest := List.flatMap_cons ..
    rw [hencode, List.length_cons, List.length_append] at hfuel
    rw [hunits, List.length_append] at hfits
    obtain ⟨fuel, rfl⟩ : ∃ n, fuel = n + 1 := ⟨fuel - 1, by omega⟩
    rw [hencode, utf8Loop_step afterLoneHigh out hlead htail,
      if_pos ⟨⟨hminimum, hpoint⟩, hseparate.1, by omega⟩, hunits, ← List.append_assoc]
    refine ih hseparate.2 hrest (by omega) ?_
    rw [List.length_append]
    omega

/-- **What the loop reads is spelled so.** -/
theorem utf8Loop_sound {afterLoneHigh : Bool} {out result : List UInt16}
    (h : utf8Loop capacity fuel source afterLoneHigh out = some result) :
    ∃ names, source = encode names ∧ result = out ++ units names ∧
      Separate afterLoneHigh names ∧ ∀ point ∈ names, point ≤ 0x10FFFF := by
  induction fuel generalizing source afterLoneHigh out with
  | zero =>
    cases source with
    | nil =>
      obtain rfl := Option.some.inj h
      exact ⟨[], rfl, (List.append_nil _).symm, trivial, fun point hp => nomatch hp⟩
    | cons lead source => cases h
  | succ fuel ih =>
    cases source with
    | nil =>
      obtain rfl := Option.some.inj h
      exact ⟨[], rfl, (List.append_nil _).symm, trivial, fun point hp => nomatch hp⟩
    | cons lead source =>
      cases hlead : leadByte lead with
      | none =>
        rw [utf8Loop, hlead] at h
        cases h
      | some announced =>
        obtain ⟨following, bits, minimum⟩ := announced
        cases htail : continuationBytes following bits source with
        | none =>
          rw [utf8Loop, hlead] at h
          dsimp only at h
          rw [htail] at h
          cases h
        | some read =>
          obtain ⟨point, rest⟩ := read
          -- the point is whole: the loop still checks its range, and the half before it
          rw [utf8Loop_step afterLoneHigh out hlead htail] at h
          split at h
          · rename_i hpoint
            obtain ⟨names, rfl, rfl, hseparate, hle⟩ := ih h
            refine ⟨point :: names, ?_, ?_, ⟨hpoint.2.1, hseparate⟩,
              List.forall_mem_cons.mpr ⟨hpoint.1.2, hle⟩⟩
            · rw [bytesOf_of_decode hlead htail hpoint.1.1, encode, encode, List.flatMap_cons]
            · rw [units, units, List.flatMap_cons, List.append_assoc]
          · cases h

/-! ## The conversions -/

/-- `utf16_to_utf8` succeeds when there is no null and the spelling and its terminator fit. -/
theorem utf16ToUtf8_eq (source : List UInt16) (capacity : ℕ) :
    utf16ToUtf8 source capacity =
      if 0 ∉ source ∧ (encoding source).length < capacity then some (encoding source)
      else none := by
  rw [utf16ToUtf8]
  by_cases hzero : capacity = 0
  · rw [if_pos hzero, if_neg fun h => by omega]
  · rw [if_neg hzero, utf16Loop_eq source [] (Nat.pos_of_ne_zero hzero), List.length_nil,
      Nat.zero_add, List.nil_append]

/-- **A spelling is read back**, into as many units as there were. -/
theorem utf8ToUtf16_encoding {source : List UInt16} (hfits : source.length ≤ capacity) :
    utf8ToUtf16 (encoding source) capacity = some source := by
  rw [utf8ToUtf16, encoding,
    utf8Loop_encode (separate_points source) (points_le source) (Nat.le_refl _), units_points]
  · rfl
  · rw [units_points, List.length_nil, Nat.zero_add]
    exact hfits

/-- **What is read has one spelling.** -/
theorem encoding_utf8ToUtf16 {result : List UInt16}
    (h : utf8ToUtf16 source capacity = some result) : encoding result = source := by
  obtain ⟨names, rfl, rfl, hseparate, hle⟩ := utf8Loop_sound h
  rw [List.nil_append, encoding, points_units hseparate hle]

/-! ## Nulls -/

theorem toNat_ofNat_byte (h : n < 0x100) : (UInt8.ofNat n).toNat = n := by
  rw [UInt8.toNat_ofNat']
  exact Nat.mod_eq_of_lt h

/-- A byte of a code point is null only for the null. -/
theorem zero_mem_bytesOf (hle : point ≤ 0x10FFFF) : 0 ∈ bytesOf point ↔ point = 0 := by
  constructor
  · intro h
    have hnot {n : ℕ} (hpos : 0 < n) (hlt : n < 0x100) : (0 : UInt8) ≠ UInt8.ofNat n := by
      intro heq
      have hnat := congrArg UInt8.toNat heq
      rw [toNat_ofNat_byte hlt] at hnat
      exact absurd hnat (Nat.ne_of_lt hpos)
    by_contra hne
    revert h
    rw [bytesOf, encodedLength]
    split
    · simp only [encodePoint, List.mem_singleton]
      exact hnot (by omega) (by omega)
    split
    · simp only [encodePoint, List.mem_cons, List.not_mem_nil, or_false]
      rintro (h | h) <;> exact hnot (by omega) (by omega) h
    split
    · simp only [encodePoint, List.mem_cons, List.not_mem_nil, or_false]
      rintro (h | h | h) <;> exact hnot (by omega) (by omega) h
    · simp only [encodePoint, List.mem_cons, List.not_mem_nil, or_false]
      rintro (h | h | h | h) <;> exact hnot (by omega) (by omega) h
  · rintro rfl
    decide

theorem zero_mem_unitsOf (hle : point ≤ 0x10FFFF) : 0 ∈ unitsOf point ↔ point = 0 := by
  constructor
  · intro h
    by_cases hge : 0x10000 ≤ point
    · obtain ⟨high, low, hunits, hhigh, hlow, -⟩ := unitsOf_pair hge hle
      rw [hunits, List.mem_pair] at h
      rcases h with rfl | rfl
      · cases hhigh
      · cases hlow
    · rw [unitsOf, if_neg hge, List.mem_singleton] at h
      have hnat := congrArg UInt16.toNat h
      rw [toNat_ofNat_unit (by omega)] at hnat
      exact hnat.symm
  · rintro rfl
    decide

/-- A spelling has a null when the name has one. -/
theorem zero_mem_encoding {source : List UInt16} : 0 ∈ encoding source ↔ 0 ∈ source := by
  conv_rhs => rw [← units_points source]
  rw [encoding, encode, units, List.mem_flatMap, List.mem_flatMap]
  refine exists_congr fun point => and_congr_right fun hpoint => ?_
  rw [zero_mem_bytesOf (points_le source point hpoint),
    zero_mem_unitsOf (points_le source point hpoint)]

end ShirleysOS.Text
