import ShirleysOS.Lib.Bytes

/-!
# Programs over a block medium

A program reads and writes the blocks of a medium, may ask for a flush, and goes on with what
it is told. The same program runs over any medium. What blocks it may write, whatever it is told,
needs no medium at all.
-/

namespace ShirleysOS.Lib

/-- A program over a block medium: `ε` is what a refused access reports. -/
inductive Io (ε α : Type) : Type
  | pure (a : α)
  | read (first count : ℕ) (next : Except ε Bytes → Io ε α)
  | write (first count : ℕ) (data : Bytes) (next : Option ε → Io ε α)
  | flush (next : Bool → Io ε α)

variable {ε α β σ : Type}

namespace Io

def bind : Io ε α → (α → Io ε β) → Io ε β
  | .pure a, f => f a
  | .read first count next, f => .read first count fun r => (next r).bind f
  | .write first count data next, f => .write first count data fun r => (next r).bind f
  | .flush next, f => .flush fun r => (next r).bind f

instance : Monad (Io ε) where
  pure := .pure
  bind := .bind

theorem bind_pure (p : Io ε α) : p.bind .pure = p := by
  induction p with
  | pure a => rfl
  | read first count next ih => exact congrArg (Io.read first count) (funext ih)
  | write first count data next ih => exact congrArg (Io.write first count data) (funext ih)
  | flush next ih => exact congrArg Io.flush (funext ih)

theorem bind_bind {γ : Type} (p : Io ε α) (f : α → Io ε β) (k : β → Io ε γ) :
    (p.bind f).bind k = p.bind fun a => (f a).bind k := by
  induction p with
  | pure a => rfl
  | read first count next ih => exact congrArg (Io.read first count) (funext ih)
  | write first count data next ih => exact congrArg (Io.write first count data) (funext ih)
  | flush next ih => exact congrArg Io.flush (funext ih)

instance : LawfulMonad (Io ε) := LawfulMonad.mk' _ bind_pure (fun _ _ => rfl) bind_bind

end Io

/-- A medium: its blocks, and what it reports for any others. -/
structure Medium (ε : Type) where
  blockSize : ℕ
  blockCount : ℕ
  refusal : ε

/-! ## Programs with a state -/

section Primitives

variable (first count : ℕ) (data : Bytes)

def readBlocks : StateT σ (Io ε) (Except ε Bytes) :=
  fun s => .read first count fun r => .pure (r, s)

def writeBlocks : StateT σ (Io ε) (Option ε) :=
  fun s => .write first count data fun r => .pure (r, s)

def flushBlocks : StateT σ (Io ε) Bool :=
  fun s => .flush fun r => .pure (r, s)

end Primitives

/-! ## What a program may write -/

/-- Whatever the program is told, the first block of each of its writes satisfies `W`. -/
def Io.Writes (W : ℕ → Prop) : Io ε α → Prop
  | .pure _ => True
  | .read _ _ next => ∀ r, (next r).Writes W
  | .write first _ _ next => W first ∧ ∀ r, (next r).Writes W
  | .flush next => ∀ r, (next r).Writes W

/-- The same for a program with a state. -/
def Writes (W : ℕ → Prop) (p : StateT σ (Io ε) α) : Prop := ∀ s, (p s).Writes W

/-- The program writes nothing. -/
abbrev Silent (p : StateT σ (Io ε) α) : Prop := Writes (fun _ => False) p

section Writes

variable {W : ℕ → Prop} {p : StateT σ (Io ε) α} {f : α → StateT σ (Io ε) β}

theorem Io.writes_anything : ∀ p : Io ε α, p.Writes fun _ => True
  | .pure _ => trivial
  | .read _ _ next => fun r => (next r).writes_anything
  | .write _ _ _ next => ⟨trivial, fun r => (next r).writes_anything⟩
  | .flush next => fun r => (next r).writes_anything

theorem Io.Writes.bind {f : α → Io ε β} (hf : ∀ a, (f a).Writes W) :
    ∀ {p : Io ε α}, p.Writes W → (p.bind f).Writes W
  | .pure a, _ => hf a
  | .read _ _ _, hp => fun r => (hp r).bind hf
  | .write _ _ _ _, hp => ⟨hp.1, fun r => (hp.2 r).bind hf⟩
  | .flush _, hp => fun r => (hp r).bind hf

theorem writes_pure (a : α) : Writes W (pure a : StateT σ (Io ε) α) := fun _ => trivial

theorem writes_bind (hp : Writes W p) (hf : ∀ a, Writes W (f a)) : Writes W (p >>= f) :=
  fun s => (hp s).bind (f := fun out : α × σ => f out.1 out.2) fun out => hf out.1 out.2

theorem writes_or (hp : Writes W p) (hf : ∀ a, (∃ b, f a = pure b) ∨ Writes W (f a)) :
    Writes W (p >>= f) := by
  refine writes_bind hp fun a => ?_
  rcases hf a with ⟨b, hb⟩ | hf
  · exact hb ▸ writes_pure b
  · exact hf

section Results

variable {δ : Type} {p : StateT σ (Io ε) (Option α)} {q : StateT σ (Io ε) (Except δ α)}

theorem writes_some {f : Option α → StateT σ (Io ε) β} (hp : Writes W p)
    (hnone : ∃ b, f none = pure b) (hf : ∀ a, Writes W (f (some a))) : Writes W (p >>= f) :=
  writes_or hp fun
    | none => .inl hnone
    | some a => .inr (hf a)

theorem writes_none {f : Option α → StateT σ (Io ε) β} (hp : Writes W p)
    (hsome : ∀ a, ∃ b, f (some a) = pure b) (hf : Writes W (f none)) : Writes W (p >>= f) :=
  writes_or hp fun
    | none => .inr hf
    | some a => .inl (hsome a)

theorem writes_ok {f : Except δ α → StateT σ (Io ε) β} (hq : Writes W q)
    (herror : ∀ e, ∃ b, f (.error e) = pure b) (hf : ∀ a, Writes W (f (.ok a))) :
    Writes W (q >>= f) :=
  writes_or hq fun
    | .error e => .inl (herror e)
    | .ok a => .inr (hf a)

end Results

theorem writes_ite {c : Prop} [Decidable c] {q : StateT σ (Io ε) α} (hp : Writes W p)
    (hq : Writes W q) : Writes W (if c then p else q) := by
  split
  · exact hp
  · exact hq

theorem writes_unless {c : Prop} [Decidable c] {a : α} (h : Writes W p) :
    Writes W (if c then pure a else p) := writes_ite (writes_pure a) h

theorem writes_when {c : Prop} [Decidable c] {a : α} (h : Writes W p) :
    Writes W (if c then p else pure a) := writes_ite h (writes_pure a)

theorem writes_get : Writes W (get : StateT σ (Io ε) σ) := fun _ => trivial

theorem writes_modify (change : σ → σ) :
    Writes W (modify change : StateT σ (Io ε) PUnit) := fun _ => trivial

theorem writes_readBlocks (first count : ℕ) :
    Writes W (readBlocks first count : StateT σ (Io ε) _) := fun _ _ => trivial

theorem writes_flushBlocks : Writes W (flushBlocks : StateT σ (Io ε) _) := fun _ _ => trivial

theorem writes_writeBlocks {first : ℕ} (count : ℕ) (data : Bytes) (h : W first) :
    Writes W (writeBlocks first count data : StateT σ (Io ε) _) := fun _ => ⟨h, fun _ => trivial⟩

end Writes

end ShirleysOS.Lib
