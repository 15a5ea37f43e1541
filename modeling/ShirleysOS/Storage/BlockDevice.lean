import ShirleysOS.Lib.Bytes

/-!
# Block devices

A device holds bytes in blocks of one size and is read and written in whole blocks. Any access
may fail: a script says for each access whether it does, what error it reports and which bytes
it leaves where it should have put others. Source: `include/shirley/io.hpp`,
`include/shirley/block_device.hpp`.
-/

namespace ShirleysOS.Storage

open Lib

/-- `io::Error`. -/
inductive Error
  | none
  | unsupported
  | invalidArgument
  | outOfRange
  | deviceError
  | notFound
  | alreadyExists
  | noSpace
  | notEmpty
  | busy
  | readOnly
deriving DecidableEq, Repr

/-- `io::Result`: it is true as a boolean when there was no error. -/
structure Result where
  transferred : ℕ
  error : Error
deriving DecidableEq, Repr

/-- The `bool` of a `Result`. -/
def Result.ok (r : Result) : Bool := r.error == .none

/-- A failing access: the error it reports, and the bytes it leaves. -/
structure Fault where
  error : Error
  leaves : Bytes
  failed : error ≠ .none

/-- A block device, with the outcome of every access to come. -/
structure Device where
  blockSize : ℕ
  blockCount : ℕ
  content : Bytes
  faults : ℕ → Option Fault
  accesses : ℕ

namespace Device

/-- The device after one more access. -/
def advance (d : Device) : Device := { d with accesses := d.accesses + 1 }

/-- `read_blocks`: the outcome, the bytes read and the device. -/
def readBlocks (d : Device) (first count : ℕ) : Result × Bytes × Device :=
  if first + count > d.blockCount then (⟨0, .outOfRange⟩, fun _ => 0, d)
  else
    match d.faults d.accesses with
    | some fault => (⟨0, fault.error⟩, fault.leaves, d.advance)
    | none => (⟨count * d.blockSize, .none⟩, d.content.slice (first * d.blockSize), d.advance)

/-- `write_blocks`: a failing one leaves any bytes in the blocks it should have written. -/
def writeBlocks (d : Device) (first count : ℕ) (data : Bytes) : Result × Device :=
  if first + count > d.blockCount then (⟨0, .outOfRange⟩, d)
  else
    match d.faults d.accesses with
    | some fault =>
      (⟨0, fault.error⟩,
        { d.advance with
          content := d.content.splice (first * d.blockSize) (count * d.blockSize) fault.leaves })
    | none =>
      (⟨count * d.blockSize, .none⟩,
        { d.advance with
          content := d.content.splice (first * d.blockSize) (count * d.blockSize) data })

end Device

end ShirleysOS.Storage
