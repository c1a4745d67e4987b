/-
Supplies of numbers.

A computation with a supply draws numbers from it, one after the other, and may fail.  Two facts
about such a computation come up again and again.  `Shifts k m m'`: from a supply that is further
by `k`, `m'` does what `m` does, with all numbers further by `k`.  `Drawn n n' ids`: the numbers
`ids` were drawn one after the other while the supply went from `n` to `n'`.  For both there is one
rule for each way to put computations together.
-/
import Mathlib.Control.Basic
import Mathlib.Data.List.Pairwise
import Mathlib.Order.Nat

namespace ICDump

/-- A computation that draws numbers.  The state is the next of them. -/
abbrev Supply (ε α : Type) : Type := StateT ℕ (Except ε) α

/-- Values with numbers in them, all of which can be moved. -/
class Shift (α : Type) where
  shift : ℕ → α → α

export Shift (shift)

namespace Supply

variable {ε α β γ : Type}

/-- Draw a number and make something of it. -/
def draw (make : ℕ → α) : Supply ε α := fun n => .ok (make n, n + 1)

/-- Fail. -/
def fail (e : ε) : Supply ε α := fun _ => .error e

lemma bind_apply (m : Supply ε α) (f : α → Supply ε β) (n : ℕ) :
    (m >>= f) n = m n >>= fun r => f r.1 r.2 := rfl

/-! ### Moving the numbers -/

instance : Shift Unit := ⟨fun _ => id⟩

instance [Shift α] [Shift β] : Shift (α × β) := ⟨fun k p => (shift k p.1, shift k p.2)⟩

instance [Shift α] : Shift (List α) := ⟨fun k => List.map (shift k)⟩

section

variable [Shift α] [Shift β] {k : ℕ}

/-- From a supply that is further by `k`, `m'` does what `m` does. -/
def Shifts (k : ℕ) (m m' : Supply ε α) : Prop :=
  ∀ n, m' (n + k) = (m n).map fun r => (shift k r.1, r.2 + k)

namespace Shifts

variable {m m' : Supply ε α}

lemma pure (a : α) : Shifts k (Pure.pure a : Supply ε α) (Pure.pure (shift k a)) := fun _ => rfl

lemma pure_of {a b : α} (h : b = shift k a) : Shifts k (Pure.pure a : Supply ε α) (Pure.pure b) :=
  h ▸ pure a

lemma fail (e : ε) : Shifts k (fail e : Supply ε α) (Supply.fail e) := fun _ => rfl

lemma draw {make make' : ℕ → α} (h : ∀ n, make' (n + k) = shift k (make n)) :
    Shifts k (draw make : Supply ε α) (Supply.draw make') := by
  intro n
  show Except.ok (make' (n + k), n + k + 1) = .ok (shift k (make n), n + 1 + k)
  rw [h, Nat.add_right_comm]

lemma bind {f f' : α → Supply ε β} (h : Shifts k m m') (hf : ∀ a, Shifts k (f a) (f' (shift k a))) :
    Shifts k (m >>= f) (m' >>= f') := by
  intro n
  rw [bind_apply, bind_apply, h n]
  cases m n with
  | error e => rfl
  | ok r => exact hf r.1 r.2

end Shifts

end

/-! ### Numbers that were drawn -/

/-- The numbers were drawn, in this order, while the supply went from `n` to `n'`. -/
structure Drawn (n n' : ℕ) (ids : List ℕ) : Prop where
  le : n ≤ n'
  ascending : ids.Pairwise (· < ·)
  bounds : ∀ i ∈ ids, n ≤ i ∧ i < n'

namespace Drawn

variable {n n₁ n' : ℕ} {ids ids' : List ℕ}

lemma nil (h : n ≤ n') : Drawn n n' [] :=
  ⟨h, List.Pairwise.nil, fun _ hi => absurd hi List.not_mem_nil⟩

lemma one (n : ℕ) : Drawn n (n + 1) [n] := by
  refine ⟨Nat.le_succ n, List.pairwise_singleton _ n, fun i hi => ?_⟩
  rw [List.mem_singleton.1 hi]
  exact ⟨Nat.le_refl n, Nat.lt_succ_self n⟩

/-- What is drawn later is larger. -/
lemma append (h : Drawn n n₁ ids) (h' : Drawn n₁ n' ids') : Drawn n n' (ids ++ ids') := by
  refine ⟨h.le.trans h'.le, ?_, fun i hi => ?_⟩
  · rw [List.pairwise_append]
    refine ⟨h.ascending, h'.ascending, fun i hi j hj => ?_⟩
    exact (h.bounds i hi).2.trans_le (h'.bounds j hj).1
  · rcases List.mem_append.1 hi with hi | hi
    · exact ⟨(h.bounds i hi).1, (h.bounds i hi).2.trans_le h'.le⟩
    · exact ⟨h.le.trans (h'.bounds i hi).1, (h'.bounds i hi).2⟩

/-- No number is drawn twice. -/
lemma nodup (h : Drawn n n' ids) : ids.Nodup := h.ascending.imp Nat.ne_of_lt

end Drawn

end Supply

end ICDump
