import ShirleysOS.Lib.BlockIo

/-!
# Programs that only read, however their reads are answered

A program that writes nothing is run by answering its reads. Which answers are possible is a
parameter: those of one medium, those of a medium that may fail, or any at all. A program is
reasoned about by what it asks for and what it ends with under every possible sequence of
answers.
-/

namespace ShirleysOS.Lib

variable {ε α β σ : Type}

/-- Which answers a read of `count` blocks from `first` on may get. -/
abbrev Answers (ε : Type) : Type := ℕ → ℕ → Except ε Bytes → Prop

/-- **However it is answered**, the program only reads, each of its reads satisfies `R`, and what
it ends with satisfies `Q`. -/
def Io.Always (A : Answers ε) (R : ℕ → ℕ → Prop) (Q : α → Prop) : Io ε α → Prop
  | .pure a => Q a
  | .read first count next => R first count ∧ ∀ r, A first count r → (next r).Always A R Q
  | .write _ _ _ _ => False
  | .flush _ => False

/-- Every read is allowed. -/
def anyRead : ℕ → ℕ → Prop := fun _ _ => True

/-- However it is answered, the program makes at most `n` reads. -/
def Io.AtMost : ℕ → Io ε α → Prop
  | _, .pure _ => True
  | 0, .read _ _ _ => False
  | n + 1, .read _ _ next => ∀ r, (next r).AtMost n
  | _, .write _ _ _ _ => False
  | _, .flush _ => False

namespace Io

variable {A : Answers ε} {R : ℕ → ℕ → Prop} {Q Q' : α → Prop}

theorem always_bind {f : α → Io ε β} {Q : β → Prop} {p : Io ε α} :
    (p >>= f).Always A R Q ↔ p.Always A R fun a => (f a).Always A R Q := by
  induction p with
  | pure a => exact Iff.rfl
  | read first count next ih => exact and_congr_right fun _ => forall₂_congr fun r _ => ih r
  | write first count data next ih => exact Iff.rfl
  | flush next ih => exact Iff.rfl

theorem Always.mono {p : Io ε α} (h : p.Always A R Q) (hQ : ∀ a, Q a → Q' a) :
    p.Always A R Q' := by
  induction p with
  | pure a => exact hQ a h
  | read first count next ih => exact ⟨h.1, fun r hr => ih r (h.2 r hr)⟩
  | write first count data next ih => exact h
  | flush next ih => exact h

theorem Always.and {p : Io ε α} (h : p.Always A R Q) (h' : p.Always A R Q') :
    p.Always A R fun a => Q a ∧ Q' a := by
  induction p with
  | pure a => exact ⟨h, h'⟩
  | read first count next ih => exact ⟨h.1, fun r hr => ih r (h.2 r hr) (h'.2 r hr)⟩
  | write first count data next ih => exact h
  | flush next ih => exact h

theorem Always.fewer {A' : Answers ε} {p : Io ε α} (h : p.Always A R Q)
    (hA : ∀ first count r, A' first count r → A first count r) : p.Always A' R Q := by
  induction p with
  | pure a => exact h
  | read first count next ih => exact ⟨h.1, fun r hr => ih r (h.2 r (hA _ _ _ hr))⟩
  | write first count data next ih => exact h
  | flush next ih => exact h

theorem Always.anyRead {p : Io ε α} (h : p.Always A R Q) : p.Always A anyRead Q := by
  induction p with
  | pure a => exact h
  | read first count next ih => exact ⟨trivial, fun r hr => ih r (h.2 r hr)⟩
  | write first count data next ih => exact h
  | flush next ih => exact h

theorem AtMost.mono {m n : ℕ} (hle : m ≤ n) {p : Io ε α} (h : p.AtMost m) : p.AtMost n := by
  induction p generalizing m n with
  | pure a => cases n <;> trivial
  | read first count next ih =>
    cases m with
    | zero => exact h.elim
    | succ m =>
      obtain ⟨n, rfl⟩ : ∃ k, n = k + 1 := ⟨n - 1, by omega⟩
      exact fun r => ih r (Nat.le_of_succ_le_succ hle) (h r)
  | write first count data next ih => cases m <;> exact h.elim
  | flush next ih => cases m <;> exact h.elim

theorem atMost_pure (n : ℕ) (a : α) : (Io.pure a : Io ε α).AtMost n := by cases n <;> trivial

theorem AtMost.bind {m n : ℕ} {p : Io ε α} {f : α → Io ε β} (hp : p.AtMost m)
    (hf : ∀ a, (f a).AtMost n) : (p >>= f).AtMost (m + n) := by
  induction p generalizing m with
  | pure a => exact (hf a).mono (Nat.le_add_left n m)
  | read first count next ih =>
    cases m with
    | zero => exact hp.elim
    | succ m =>
      rw [Nat.succ_add]
      exact fun r => ih r (hp r)
  | write first count data next ih => cases m <;> exact hp.elim
  | flush next ih => cases m <;> exact hp.elim

end Io

/-! ## Programs with a state -/

/-- A program without a state, as a part of one with a state. -/
def Io.lift (p : Io ε α) : StateT σ (Io ε) α := fun s => p >>= fun a => .pure (a, s)

/-- The same for a program with a state. -/
def always (A : Answers ε) (R : ℕ → ℕ → Prop) (p : StateT σ (Io ε) α) (Q : α → σ → Prop)
    (s : σ) : Prop :=
  (p s).Always A R fun out => Q out.1 out.2

section Rules

variable {A : Answers ε} {R : ℕ → ℕ → Prop} {p : StateT σ (Io ε) α}
  {f : α → StateT σ (Io ε) β} {Q Q' : α → σ → Prop} {s : σ}

theorem always_bind {Q : β → σ → Prop} :
    always A R (p >>= f) Q s ↔ always A R p (fun a => always A R (f a) Q) s :=
  Io.always_bind (p := p s) (f := fun out : α × σ => f out.1 out.2)
    (Q := fun out : β × σ => Q out.1 out.2)

theorem always.mono (h : always A R p Q s) (hQ : ∀ a s', Q a s' → Q' a s') :
    always A R p Q' s :=
  Io.Always.mono h fun out => hQ out.1 out.2

theorem always.and (h : always A R p Q s) (h' : always A R p Q' s) :
    always A R p (fun a s' => Q a s' ∧ Q' a s') s :=
  Io.Always.and h h'

theorem always.fewer {A' : Answers ε} (h : always A R p Q s)
    (hA : ∀ first count r, A' first count r → A first count r) : always A' R p Q s :=
  Io.Always.fewer h hA

theorem always.anyRead (h : always A R p Q s) : always A anyRead p Q s := Io.Always.anyRead h

@[simp] theorem always_get {Q : σ → σ → Prop} :
    always A R (get : StateT σ (Io ε) σ) Q s ↔ Q s s := Iff.rfl

@[simp] theorem always_modify {Q : PUnit → σ → Prop} {change : σ → σ} :
    always A R (modify change : StateT σ (Io ε) PUnit) Q s ↔ Q ⟨⟩ (change s) := Iff.rfl

@[simp] theorem always_lift {p : Io ε α} :
    always A R p.lift Q s ↔ p.Always A R fun a => Q a s :=
  Io.always_bind (p := p) (f := fun a => .pure (a, s))
    (Q := fun out : α × σ => Q out.1 out.2)

end Rules

end ShirleysOS.Lib
