import Mathlib.Algebra.Ring.Nat

/-!
# Guarded reads

A reader of foreign data is safe when no read of it leaves the data. Its reads are guarded here:
the first one outside stops the run. A loop runs on fuel, and stops when it is used up.
-/

namespace ShirleysOS.Lib

/-- Why a run stops without a result. -/
inductive Stop
  | outside
  | exhausted
deriving DecidableEq, Repr

/-- The result of a run, unless it stops. -/
abbrev Guarded (α : Type) : Type := Except Stop α

variable {α β : Type} {low high offset width : ℕ}

/-- The value that `width` bytes at `offset` have, if they are in `[low, high)`. -/
def within (low high offset width : ℕ) (value : α) : Guarded α :=
  if low ≤ offset ∧ offset + width ≤ high then .ok value else .error .outside

theorem within_ok {value : α} (hlow : low ≤ offset) (hhigh : offset + width ≤ high) :
    within low high offset width value = .ok value := if_pos ⟨hlow, hhigh⟩

theorem within_outside {value : α} (h : high < offset + width) :
    within low high offset width value = .error .outside := if_neg fun hin => by omega

@[simp] theorem guarded_ok_bind (a : α) (f : α → Guarded β) : (Except.ok a >>= f) = f a := rfl

/-- The test holds of every member; the first one that fails ends the loop. -/
def allOf (test : α → Guarded Bool) : List α → Guarded Bool
  | [] => .ok true
  | a :: rest => do if ← test a then allOf test rest else .ok false

theorem allOf_ok {test : α → Guarded Bool} {holds : α → Bool} {list : List α}
    (h : ∀ a ∈ list, test a = .ok (holds a)) : allOf test list = .ok (list.all holds) := by
  induction list with
  | nil => rfl
  | cons a rest ih =>
    rw [allOf, h a List.mem_cons_self, guarded_ok_bind, List.all_cons,
      ih fun b hb => h b (List.mem_cons_of_mem a hb)]
    cases holds a <;> rfl

end ShirleysOS.Lib
