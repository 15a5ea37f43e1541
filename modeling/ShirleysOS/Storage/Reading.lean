import ShirleysOS.Lib.Answers
import ShirleysOS.Storage.BlockDevice

/-!
# Programs over a block device

A program runs over a device whose accesses may fail. A program that only reads is answered with
the content of the device or with an error, and leaves the content as it is.
-/

namespace ShirleysOS.Storage

open Lib

variable {α : Type}

/-- A program over a device. -/
def runDevice : Io Error α → Device → α × Device
  | .pure a, d => (a, d)
  | .read first count next, d =>
    let answer := d.readBlocks first count
    runDevice (next (if answer.1.ok then .ok answer.2.1 else .error answer.1.error)) answer.2.2
  | .write first count data next, d =>
    let answer := d.writeBlocks first count data
    runDevice (next (if answer.1.ok then none else some answer.1.error)) answer.2
  | .flush next, d => runDevice (next true) d

/-- The reads that a program makes over a device, by their first blocks and numbers of blocks. -/
def fetched : Io Error α → Device → List (ℕ × ℕ)
  | .pure _, _ => []
  | .read first count next, d =>
    let answer := d.readBlocks first count
    (first, count) ::
      fetched (next (if answer.1.ok then .ok answer.2.1 else .error answer.1.error)) answer.2.2
  | .write first count data next, d =>
    let answer := d.writeBlocks first count data
    fetched (next (if answer.1.ok then none else some answer.1.error)) answer.2
  | .flush next, d => fetched (next true) d

namespace Device

/-- The block at `lba`. -/
def block (d : Device) (lba : ℕ) : Bytes := d.content.slice (lba * d.blockSize)

/-- What a read may get: the content, or an error. -/
def answers (d : Device) : Answers Error := fun first count r =>
  (∃ error, r = .error error) ∨
    first + count ≤ d.blockCount ∧ r = .ok (d.content.slice (first * d.blockSize))

/-- What a read gets when no access fails. -/
def exact (d : Device) : Answers Error := fun first count r =>
  r = if first + count ≤ d.blockCount then .ok (d.content.slice (first * d.blockSize))
    else .error .outOfRange

/-- What a device replies: the content, or an error that is one. -/
def replies (d : Device) : Answers Error := fun first count r =>
  d.answers first count r ∧ r ≠ .error .none

theorem exact_answers {d : Device} {first count : ℕ} {r : Except Error Bytes}
    (h : d.exact first count r) : d.answers first count r := by
  rw [Device.exact] at h
  split at h
  · next hrange => exact .inr ⟨hrange, h⟩
  · exact .inl ⟨_, h⟩

/-- Two devices that differ in how many accesses there have been. -/
structure Same (d d' : Device) : Prop where
  blockSize : d'.blockSize = d.blockSize
  blockCount : d'.blockCount = d.blockCount
  content : d'.content = d.content
  faults : d'.faults = d.faults

theorem Same.refl (d : Device) : Same d d := ⟨rfl, rfl, rfl, rfl⟩

theorem Same.symm {d d' : Device} (h : Same d d') : Same d' d :=
  ⟨h.blockSize.symm, h.blockCount.symm, h.content.symm, h.faults.symm⟩

theorem Same.trans {d d' d'' : Device} (h : Same d d') (h' : Same d' d'') : Same d d'' :=
  ⟨h'.blockSize.trans h.blockSize, h'.blockCount.trans h.blockCount,
    h'.content.trans h.content, h'.faults.trans h.faults⟩

theorem Same.answers {d d' : Device} (h : Same d d') : d'.answers = d.answers := by
  unfold Device.answers
  rw [h.blockSize, h.blockCount, h.content]

theorem Same.replies {d d' : Device} (h : Same d d') : d'.replies = d.replies := by
  unfold Device.replies
  rw [h.answers]

theorem Same.exact {d d' : Device} (h : Same d d') : d'.exact = d.exact := by
  unfold Device.exact
  rw [h.blockSize, h.blockCount, h.content]

/-- The three ways in which a read ends. -/
theorem readBlocks_ends (d : Device) (first count : ℕ) :
    (d.blockCount < first + count ∧
        d.readBlocks first count = (⟨0, .outOfRange⟩, fun _ => 0, d)) ∨
      (∃ fault, d.faults d.accesses = some fault ∧
        d.readBlocks first count = (⟨0, fault.error⟩, fault.leaves, d.advance)) ∨
      first + count ≤ d.blockCount ∧
        d.readBlocks first count = (⟨count * d.blockSize, .none⟩,
          d.content.slice (first * d.blockSize), d.advance) := by
  unfold readBlocks
  split
  · next hrange => exact .inl ⟨hrange, rfl⟩
  · next hrange =>
    split
    · next fault hfault => exact .inr (.inl ⟨fault, hfault, rfl⟩)
    · exact .inr (.inr ⟨by omega, rfl⟩)

theorem readBlocks_same (d : Device) (first count : ℕ) :
    Same d (d.readBlocks first count).2.2 ∧
      (d.readBlocks first count).2.2.accesses ≤ d.accesses + 1 := by
  rcases d.readBlocks_ends first count with ⟨-, h⟩ | ⟨fault, -, h⟩ | ⟨-, h⟩
  · rw [h]
    exact ⟨Same.refl d, Nat.le_succ _⟩
  · rw [h]
    exact ⟨⟨rfl, rfl, rfl, rfl⟩, Nat.le_refl _⟩
  · rw [h]
    exact ⟨⟨rfl, rfl, rfl, rfl⟩, Nat.le_refl _⟩

/-- What the device answers to a read. -/
def answer (d : Device) (first count : ℕ) : Except Error Bytes :=
  if (d.readBlocks first count).1.ok then .ok (d.readBlocks first count).2.1
  else .error (d.readBlocks first count).1.error

theorem readBlocks_replies (d : Device) (first count : ℕ) :
    d.replies first count (d.answer first count) := by
  unfold answer
  rcases d.readBlocks_ends first count with ⟨-, h⟩ | ⟨fault, -, h⟩ | ⟨hrange, h⟩
  · rw [h]
    exact ⟨.inl ⟨_, rfl⟩, fun hnone => nomatch hnone⟩
  · rw [h, Result.ok, if_neg]
    · exact ⟨.inl ⟨_, rfl⟩, fun hnone => fault.failed (Except.error.inj hnone)⟩
    · simpa using fault.failed
  · rw [h]
    exact ⟨.inr ⟨hrange, rfl⟩, fun hnone => nomatch hnone⟩

theorem readBlocks_exact {d : Device} (hworks : ∀ n, d.faults n = none) (first count : ℕ) :
    d.exact first count (d.answer first count) := by
  unfold Device.exact answer
  rcases d.readBlocks_ends first count with ⟨hrange, h⟩ | ⟨fault, hfault, -⟩ | ⟨hrange, h⟩
  · rw [h, if_neg (Nat.not_le.mpr hrange)]
    rfl
  · rw [hworks] at hfault
    cases hfault
  · rw [h, if_pos hrange]
    rfl

end Device

variable {R : ℕ → ℕ → Prop} {Q : α → Prop} {p : Io Error α} {d : Device}

theorem runDevice_map {β : Type} (f : α → β) :
    runDevice (p.bind fun a => .pure (f a)) d = (f (runDevice p d).1, (runDevice p d).2) := by
  induction p generalizing d with
  | pure a => rfl
  | read first count next ih => exact ih _
  | write first count data next ih => exact ih _
  | flush next ih => exact ih _

/-- **A run over a device** whose answers are among those that a program expects. -/
theorem runDevice_of_answers {A : ℕ → ℕ → Except Error Bytes → Prop}
    (hA : ∀ d', Device.Same d d' → ∀ first count, A first count (d'.answer first count))
    (h : p.Always A R Q) :
    Q (runDevice p d).1 ∧ Device.Same d (runDevice p d).2 ∧ ∀ r ∈ fetched p d, R r.1 r.2 := by
  induction p generalizing d with
  | pure a => exact ⟨h, Device.Same.refl d, fun r hr => nomatch hr⟩
  | read first count next ih =>
    have hsame := (d.readBlocks_same first count).1
    have hnext := h.2 _ (hA d (Device.Same.refl d) first count)
    obtain ⟨hout, hrest, hreads⟩ := ih _ (fun d' hd' => hA d' (hsame.trans hd')) hnext
    exact ⟨hout, hsame.trans hrest, List.forall_mem_cons.mpr ⟨h.1, hreads⟩⟩
  | write first count data next ih => exact h.elim
  | flush next ih => exact h.elim

/-- **A run over a device that may fail.** -/
theorem runDevice_of_replies (h : p.Always d.replies R Q) :
    Q (runDevice p d).1 ∧ Device.Same d (runDevice p d).2 :=
  have hrun := runDevice_of_answers
    (fun d' hd' first count => hd'.replies ▸ d'.readBlocks_replies first count) h
  ⟨hrun.1, hrun.2.1⟩

theorem runDevice_of_always (h : p.Always d.answers R Q) :
    Q (runDevice p d).1 ∧ Device.Same d (runDevice p d).2 :=
  runDevice_of_replies (h.fewer fun _ _ _ hr => hr.1)

/-- **The reads of a run.** -/
theorem fetched_of_always (h : p.Always d.answers R Q) : ∀ r ∈ fetched p d, R r.1 r.2 :=
  (runDevice_of_answers
    (fun d' hd' first count => hd'.answers ▸ (d'.readBlocks_replies first count).1) h).2.2

/-- **A run over a device that does not fail.** -/
theorem runDevice_of_exact (hworks : ∀ n, d.faults n = none) (h : p.Always d.exact R Q) :
    Q (runDevice p d).1 ∧ Device.Same d (runDevice p d).2 :=
  have hrun := runDevice_of_answers (fun _ hd' first count =>
    hd'.exact ▸ Device.readBlocks_exact (fun n => hd'.faults ▸ hworks n) first count) h
  ⟨hrun.1, hrun.2.1⟩

/-- A program that only reads gives the same again over a device that does not fail. -/
theorem runDevice_again {d' : Device} (hworks : ∀ n, d.faults n = none) (hsame : Device.Same d d')
    (h : p.Always d.exact R Q) : (runDevice p d').1 = (runDevice p d).1 := by
  induction p generalizing d d' with
  | pure a => rfl
  | read first count next ih =>
    have hworks' : ∀ n, d'.faults n = none := by
      rw [hsame.faults]
      exact hworks
    have hnext := h.2 _ (Device.readBlocks_exact hworks first count)
    have hstep := (d.readBlocks_same first count).1
    have hstep' := (d'.readBlocks_same first count).1
    have hanswer := Device.readBlocks_exact hworks' first count
    rw [hsame.exact] at hanswer
    rw [← hstep.exact] at hnext
    -- both devices give the one answer that is possible
    have heq := hanswer.trans (Device.readBlocks_exact hworks first count).symm
    rw [Device.answer, Device.answer] at heq
    rw [runDevice, runDevice, heq]
    exact ih _ (by rw [hstep.faults]; exact hworks) (hstep.symm.trans (hsame.trans hstep')) hnext
  | write first count data next ih => exact h.elim
  | flush next ih => exact h.elim

theorem runDevice_accesses {n : ℕ} (h : p.AtMost n) :
    (runDevice p d).2.accesses ≤ d.accesses + n := by
  induction p generalizing d n with
  | pure a => exact Nat.le_add_right _ _
  | read first count next ih =>
    cases n with
    | zero => exact h.elim
    | succ n =>
      have hone := (d.readBlocks_same first count).2
      calc
        _ ≤ (d.readBlocks first count).2.2.accesses + n := ih _ (h _)
        _ ≤ d.accesses + (n + 1) := by omega
  | write first count data next ih => cases n <;> exact h.elim
  | flush next ih => cases n <;> exact h.elim

end ShirleysOS.Storage
