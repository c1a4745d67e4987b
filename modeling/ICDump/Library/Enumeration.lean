/-
Enumerations: what a stepper returns when it is called again and again.

A stepper takes a state to an element and the next state, or stops.  `YieldsList next s l` says that
from `s` it returns the elements of `l`, one after the other, and then stops.  A stepper that
reads a list at a position and moves the position on yields what is left of the list
(`yields_drop`).
-/
import Mathlib.Data.List.Basic

namespace ICDump

variable {σ α : Type*} {next : σ → Option (α × σ)}

/-- From the state, repeated calls of `next` return the elements of the list, and then stop. -/
inductive YieldsList (next : σ → Option (α × σ)) : σ → List α → Prop
  | stop {s : σ} (h : next s = none) : YieldsList next s []
  | next {s s' : σ} {a : α} {l : List α} (h : next s = some (a, s'))
      (hrest : YieldsList next s' l) : YieldsList next s (a :: l)

namespace YieldsList

variable {s : σ} {l l' : List α}

/-- There is one enumeration at most. -/
lemma unique (h : YieldsList next s l) (h' : YieldsList next s l') : l = l' := by
  induction h generalizing l' with
  | stop hs =>
      cases h' with
      | stop => rfl
      | next hs' => exact absurd (hs.symm.trans hs') (by simp)
  | next hs hrest ih =>
      cases h' with
      | stop hs' => exact absurd (hs.symm.trans hs') (by simp)
      | next hs' hrest' =>
          obtain ⟨rfl, rfl⟩ := Prod.mk.inj (Option.some.inj (hs.symm.trans hs'))
          rw [ih hrest']

lemma iff_eq (h : YieldsList next s l) : YieldsList next s l' ↔ l' = l :=
  ⟨fun h' => h'.unique h, fun heq => heq ▸ h⟩

end YieldsList

/-- In the states of `I`, the stepper reads the list at the position, and moves it on. -/
def ReadsList (next : σ → Option (α × σ)) (I : σ → Prop) (pos : σ → ℕ) (l : List α) : Prop :=
  ∀ s, I s → (l.length ≤ pos s ∧ next s = none) ∨
    ∃ a s', l[pos s]? = some a ∧ next s = some (a, s') ∧ I s' ∧ pos s' = pos s + 1

/-- **A stepper that reads a list yields what is left of it.** -/
theorem yields_drop {I : σ → Prop} {pos : σ → ℕ} {l : List α} (h : ReadsList next I pos l) {s : σ}
    (hs : I s) : YieldsList next s (l.drop (pos s)) := by
  induction hn : l.length - pos s generalizing s with
  | zero =>
      rcases h s hs with ⟨hlen, hstop⟩ | ⟨a, s', ha, -⟩
      · rw [List.drop_eq_nil_of_le hlen]
        exact .stop hstop
      · have hlt := (List.getElem?_eq_some_iff.1 ha).1
        omega
  | succ n ih =>
      rcases h s hs with ⟨hlen, -⟩ | ⟨a, s', ha, hnext, hs', hpos⟩
      · omega
      · obtain ⟨hlt, rfl⟩ := List.getElem?_eq_some_iff.1 ha
        have hrest := ih hs' (by omega)
        rw [hpos] at hrest
        rw [List.drop_eq_getElem_cons hlt]
        exact .next hnext hrest

end ICDump
