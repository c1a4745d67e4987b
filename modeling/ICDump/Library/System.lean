/-
Systems: states, guarded actions, and the runs they allow.

A system says what an action does to a state and in which states it may happen.  A run
is a list of actions, each of which may happen in the state that the ones before it lead
to.  What every action keeps holds in every state that a run goes through.
-/
import Mathlib.Data.List.Basic
import Mathlib.Data.List.Infix

namespace ICDump

/-- A system with states `σ` and actions `α`. -/
structure System (σ α : Type*) where
  /-- What an action does. -/
  apply : σ → α → σ
  /-- When an action may happen. -/
  enabled : σ → α → Prop

namespace System

variable {σ α : Type*} (S : System σ α)

/-- The state that a list of actions leads to. -/
def after (s : σ) (l : List α) : σ := l.foldl S.apply s

/-- The actions can happen one after the other. -/
def Run : σ → List α → Prop
  | _, [] => True
  | s, a :: l => S.enabled s a ∧ Run (S.apply s a) l

variable {S} {s : σ} {l l' : List α}

@[simp] lemma after_nil : S.after s [] = s := rfl

@[simp] lemma after_cons (a : α) : S.after s (a :: l) = S.after (S.apply s a) l := rfl

lemma after_append : S.after s (l ++ l') = S.after (S.after s l) l' :=
  List.foldl_append

lemma run_singleton {a : α} : S.Run s [a] ↔ S.enabled s a :=
  and_iff_left trivial

lemma run_append : S.Run s (l ++ l') ↔ S.Run s l ∧ S.Run (S.after s l) l' := by
  induction l generalizing s with
  | nil => simp [Run]
  | cons a l ih => rw [List.cons_append, Run, Run, ih, after_cons, and_assoc]

lemma Run.of_prefix (h : S.Run s l') (hl : l <+: l') : S.Run s l := by
  obtain ⟨l'', rfl⟩ := hl
  exact (run_append.1 h).1

/-- **Invariants of runs.**  What every enabled action keeps, a run keeps. -/
theorem Run.invariant {I : σ → Prop} (hI : ∀ s a, I s → S.enabled s a → I (S.apply s a))
    (hs : I s) (h : S.Run s l) : I (S.after s l) := by
  induction l generalizing s with
  | nil => exact hs
  | cons a l ih => exact ih (hI s a hs h.1) h.2

/-- The states before and after a run are in every preorder in which each action goes up. -/
lemma after_mono {R : σ → σ → Prop} (hrefl : ∀ s, R s s)
    (htrans : ∀ s t u, R s t → R t u → R s u) (hR : ∀ s a, R s (S.apply s a)) (s : σ)
    (l : List α) : R s (S.after s l) := by
  induction l generalizing s with
  | nil => exact hrefl s
  | cons a l ih => exact htrans _ _ _ (hR s a) (ih _)

end System

end ICDump
