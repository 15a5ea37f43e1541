import Mathlib.Algebra.Ring.Nat

/-!
# Names in UTF-8 and UTF-16

Names are UTF-8 (WTF-8, so that a lone surrogate has a spelling too) in the kernel and UTF-16 on
an exFAT volume. A string is the list of its bytes before the terminating null. Source:
`kernel/text/utf.cpp`.
-/

namespace ShirleysOS.Text

def highSurrogate (unit : ℕ) : Bool := 0xD800 ≤ unit && unit ≤ 0xDBFF

def lowSurrogate (unit : ℕ) : Bool := 0xDC00 ≤ unit && unit ≤ 0xDFFF

/-! ## From UTF-16 -/

/-- The bytes of a code point that takes `bytes` of them. -/
def encodePoint (bytes point : ℕ) : List UInt8 :=
  let continuation (k : ℕ) : UInt8 := UInt8.ofNat (0x80 + point / 64 ^ k % 64)
  match bytes with
  | 1 => [UInt8.ofNat point]
  | 2 => [UInt8.ofNat (0xC0 + point / 64), continuation 0]
  | 3 => [UInt8.ofNat (0xE0 + point / 64 ^ 2), continuation 1, continuation 0]
  | _ => [UInt8.ofNat (0xF0 + point / 64 ^ 3), continuation 2, continuation 1, continuation 0]

/-- How many bytes a code point takes. -/
def encodedLength (point : ℕ) : ℕ :=
  if point < 0x80 then 1 else if point < 0x800 then 2 else if point < 0x10000 then 3 else 4

/-- `put`: one byte is kept back for the terminating null. -/
def putPoint (capacity point : ℕ) (out : List UInt8) : Option (List UInt8) :=
  if encodedLength point ≥ capacity - out.length then none
  else some (out ++ encodePoint (encodedLength point) point)

/-- The loop of `utf16_to_utf8`: a surrogate pair is one code point. -/
def utf16Loop (capacity : ℕ) : List UInt16 → List UInt8 → Option (List UInt8)
  | [], out => some out
  | [unit], out => if unit = 0 then none else putPoint capacity unit.toNat out
  | unit :: next :: rest, out =>
    if unit = 0 then none
    else if highSurrogate unit.toNat && lowSurrogate next.toNat then
      match putPoint capacity
          (0x10000 + (unit.toNat - 0xD800) * 2 ^ 10 + (next.toNat - 0xDC00)) out with
      | none => none
      | some out => utf16Loop capacity rest out
    else
      match putPoint capacity unit.toNat out with
      | none => none
      | some out => utf16Loop capacity (next :: rest) out

/-- `utf16_to_utf8` into a buffer of `capacity` bytes. -/
def utf16ToUtf8 (source : List UInt16) (capacity : ℕ) : Option (List UInt8) :=
  if capacity = 0 then none else utf16Loop capacity source []

/-! ## From UTF-8 -/

/-- What a lead byte announces: how many bytes follow, the bits it has itself, and the least
code point that needs so many bytes. -/
def leadByte (lead : UInt8) : Option (ℕ × ℕ × ℕ) :=
  if lead < 0x80 then some (0, lead.toNat, 0)
  else if lead &&& 0xE0 = 0xC0 then some (1, (lead &&& 0x1F).toNat, 0x80)
  else if lead &&& 0xF0 = 0xE0 then some (2, (lead &&& 0x0F).toNat, 0x800)
  else if lead &&& 0xF8 = 0xF0 then some (3, (lead &&& 0x07).toNat, 0x10000)
  else none

/-- The continuation bytes of a sequence, added to its code point; the null that ends the string
is none. -/
def continuationBytes : ℕ → ℕ → List UInt8 → Option (ℕ × List UInt8)
  | 0, point, rest => some (point, rest)
  | _ + 1, _, [] => none
  | n + 1, point, byte :: rest =>
    if byte &&& 0xC0 ≠ 0x80 then none
    else continuationBytes n (point * 2 ^ 6 + (byte &&& 0x3F).toNat) rest

/-- The loop of `utf8_to_utf16`. A pair of surrogates in two sequences of their own is refused,
as the name would have two spellings. -/
def utf8Loop (capacity : ℕ) : ℕ → List UInt8 → Bool → List UInt16 → Option (List UInt16)
  | _, [], _, out => some out
  | 0, _ :: _, _, _ => none
  | fuel + 1, lead :: rest, afterLoneHigh, out =>
    match leadByte lead with
    | none => none
    | some (following, bits, minimum) =>
      match continuationBytes following bits rest with
      | none => none
      | some (point, rest) =>
        if point < minimum ∨ point > 0x10FFFF then none
        else if afterLoneHigh && lowSurrogate point then none
        else if point ≥ 0x10000 then
          if capacity - out.length < 2 then none
          else
            utf8Loop capacity fuel rest (highSurrogate point)
              (out ++ [UInt16.ofNat (0xD800 + (point - 0x10000) / 2 ^ 10),
                UInt16.ofNat (0xDC00 + (point - 0x10000) % 2 ^ 10)])
        else if capacity - out.length < 1 then none
        else utf8Loop capacity fuel rest (highSurrogate point) (out ++ [UInt16.ofNat point])

/-- `utf8_to_utf16` into a buffer of `capacity` units. -/
def utf8ToUtf16 (source : List UInt8) (capacity : ℕ) : Option (List UInt16) :=
  utf8Loop capacity source.length source false []

end ShirleysOS.Text
