/-
Attempts: computations on a state that may give up.

A recursion that need not end is run with a bound on its depth.  When the bound is too
small the computation gives up: it has no result, but it still has the state that it had
reached by then, which is the state of the unbounded computation at that point.
-/
import Mathlib.Data.Nat.Notation
import Mathlib.Logic.Basic

namespace ICDump

/-- A computation on states `σ`: its result, if it does not give up, and the state reached. -/
def Attempt (σ α : Type) : Type := σ → Option α × σ

namespace Attempt

variable {σ α β : Type}

instance : Monad (Attempt σ) where
  pure a s := (some a, s)
  bind m f s :=
    match m s with
    | (some a, s') => f a s'
    | (none, s') => (none, s')

/-- Give up. -/
def giveUp : Attempt σ α := fun s => (none, s)

/-- `while (cond) body`, with a bound on the number of times that the condition is evaluated.  The
results of the body are collected. -/
def whileLoop (cond : Attempt σ Bool) (body : Attempt σ α) : ℕ → Attempt σ (List α)
  | 0 => giveUp
  | n + 1 => do
    if ← cond then
      let a ← body
      let as ← whileLoop cond body n
      return a :: as
    else return []

variable {m : Attempt σ α} {f : α → Attempt σ β} {s s' : σ} {a : α}

/-- The second computation runs in the state that the first one leaves. -/
lemma bind_of_some (h : m s = (some a, s')) : (m >>= f) s = f a s' := by
  simp only [bind, h]

lemma bind_of_none (h : m s = (none, s')) : (m >>= f) s = (none, s') := by
  simp only [bind, h]

lemma bind_pure (f : α → β) : (m >>= fun a => pure (f a)) s = ((m s).1.map f, (m s).2) := by
  rcases h : m s with ⟨_ | a, s'⟩
  · rw [bind_of_none h]
    rfl
  · rw [bind_of_some h]
    rfl

/-- Both computations have a result, the second one from the state that the first one leaves. -/
lemma bind_eq_some {b : β} {s'' : σ} : (m >>= f) s = (some b, s'') ↔
    ∃ a s', m s = (some a, s') ∧ f a s' = (some b, s'') := by
  constructor
  · intro h
    rcases hm : m s with ⟨_ | a, s'⟩
    · rw [bind_of_none hm] at h
      exact absurd (congrArg Prod.fst h) (by simp)
    · rw [bind_of_some hm] at h
      exact ⟨a, s', rfl, h⟩
  · rintro ⟨a, s', hm, hf⟩
    rw [bind_of_some hm, hf]

lemma pure_eq_some {a b : α} : (pure a : Attempt σ α) s = (some b, s') ↔ b = a ∧ s' = s := by
  show (some a, s) = (some b, s') ↔ _
  rw [Prod.mk.injEq, Option.some.injEq, eq_comm, @eq_comm _ s]

/-- The induction rule of a loop that ends: a relation between the states before and after it that
holds where the condition fails and is kept by an iteration put in front. -/
lemma whileLoop_induction {cond : Attempt σ Bool} {body : Attempt σ α} {R : σ → σ → Prop}
    (done : ∀ {s s'}, cond s = (some false, s') → R s s')
    (step : ∀ {s s₁ s₂ s' a}, cond s = (some true, s₁) → body s₁ = (some a, s₂) → R s₂ s' →
      R s s') {n : ℕ} {as : List α} {s s' : σ}
    (h : whileLoop cond body n s = (some as, s')) : R s s' := by
  induction n generalizing s as with
  | zero => exact absurd (congrArg Prod.fst h) (by simp [whileLoop, giveUp])
  | succ n ih =>
      obtain ⟨b, s₁, hcond, h⟩ := bind_eq_some.1 h
      cases b with
      | false =>
          obtain ⟨-, rfl⟩ := pure_eq_some.1 h
          exact done hcond
      | true =>
          obtain ⟨a, s₂, hbody, h⟩ := bind_eq_some.1 h
          obtain ⟨as', s₃, hloop, h⟩ := bind_eq_some.1 h
          obtain ⟨-, rfl⟩ := pure_eq_some.1 h
          exact step hcond hbody (ih hloop)

/-- A computation that never gives up. -/
def Total (m : Attempt σ α) : Prop := ∀ s, (m s).1.isSome

lemma total_pure (a : α) : Total (pure a : Attempt σ α) := fun _ => rfl

lemma Total.bind (hm : m.Total) (hf : ∀ a, (f a).Total) : (m >>= f).Total := by
  intro s
  obtain ⟨a, ha⟩ := Option.isSome_iff_exists.1 (hm s)
  rw [bind_of_some (Prod.ext ha rfl)]
  exact hf a _

/-- With a continuation that never gives up, only the first computation can. -/
lemma isSome_bind (hf : ∀ a, (f a).Total) (s : σ) : ((m >>= f) s).1.isSome = (m s).1.isSome := by
  rcases h : m s with ⟨_ | a, s'⟩
  · rw [bind_of_none h]
    rfl
  · rw [bind_of_some h]
    exact hf a s'

end Attempt

end ICDump
