/-
Writers that only append.

A writer appends blocks to a list and returns where it has put them.  Blocks that were written are
not touched any more, so what a writer achieves can be said about the list that there is in the
end: `Emits final w Q` says that wherever `w` runs on the way to the list `final`, its result
satisfies `Q`, a property that may speak of `final`.  There is one rule for each way to put
writers together.
-/
import Mathlib.Data.List.Basic
import Mathlib.Data.List.Forall2

namespace ICDump

/-- A computation that appends to a list. -/
abbrev Emit (β α : Type) : Type := StateM (List β) α

namespace Emit

variable {β α γ δ : Type}

/-- Append a block, which may depend on where it is put, and return where that is. -/
def emit (block : ℕ → List β) : Emit β ℕ := fun m => (m.length, m ++ block m.length)

/-- The number of elements that are missing for the next multiple of `k`. -/
def gap (k n : ℕ) : ℕ := (k - n % k) % k

/-- The same at the next multiple of `k`. -/
def emitAligned (fill : β) (k : ℕ) (block : ℕ → List β) : Emit β ℕ := fun m =>
  (m.length + gap k m.length,
    m ++ List.replicate (gap k m.length) fill ++ block (m.length + gap k m.length))

/-- Write something for each element of a list. -/
def emitEach (w : α → Emit β γ) : List α → Emit β (List γ)
  | [] => return []
  | x :: xs => do
    let y ← w x
    let ys ← emitEach w xs
    return y :: ys

/-- Write something if it is there. -/
def emitOption (w : α → Emit β γ) : Option α → Emit β (Option γ)
  | none => return none
  | some x => do
    let y ← w x
    return some y

/-- On the way to the list `final`, behind something that is there already, `w` has a result that
satisfies `Q`. -/
structure Emits (final : List β) (w : Emit β α) (Q : α → Prop) : Prop where
  appends : ∀ m, m <+: (w m).2
  holds : ∀ m, m ≠ [] → (w m).2 <+: final → Q (w m).1

namespace Emits

variable {final : List β} {w : Emit β α} {f : α → Emit β γ} {Q Q' : α → Prop} {R : γ → Prop}
  {a : α}

lemma pure (h : Q a) : Emits final (Pure.pure a) Q where
  appends _ := List.prefix_rfl
  holds _ _ _ := h

lemma mono (h : Emits final w Q) (hQ : ∀ a, Q a → Q' a) : Emits final w Q' where
  appends := h.appends
  holds m hm hfinal := hQ _ (h.holds m hm hfinal)

/-- What follows achieves its own, and may be given what was achieved before. -/
lemma bind (h : Emits final w Q) (hf : ∀ a, Emits final (f a) fun c => Q a → R c) :
    Emits final (w >>= f) R where
  appends m := (h.appends m).trans ((hf (w m).1).appends (w m).2)
  holds m hm hfinal := by
    have hmiddle : (w m).2 <+: final := ((hf (w m).1).appends (w m).2).trans hfinal
    have hne : (w m).2 ≠ [] := fun hnil =>
      hm (List.prefix_nil.1 (hnil ▸ h.appends m))
    exact (hf (w m).1).holds (w m).2 hne hfinal (h.holds m hm hmiddle)

/-- What follows is a value. -/
lemma map (h : Emits final w Q) {g : α → γ} (hg : ∀ a, Q a → R (g a)) :
    Emits final (w >>= fun a => Pure.pure (g a)) R :=
  h.bind fun a => pure (hg a)

/-- The block is where the writer says it is. -/
lemma emit (block : ℕ → List β) :
    Emits final (emit block) fun off => 0 < off ∧ block off <+: final.drop off where
  appends m := List.prefix_append m _
  holds m hm hfinal := by
    refine ⟨List.length_pos_of_ne_nil hm, ?_⟩
    obtain ⟨rest, rfl⟩ := hfinal
    show block m.length <+: ((m ++ block m.length) ++ rest).drop m.length
    rw [List.append_assoc, List.drop_left]
    exact List.prefix_append _ _

lemma emitAligned (fill : β) {k : ℕ} (hk : 0 < k) (block : ℕ → List β) :
    Emits final (emitAligned fill k block) fun off =>
      0 < off ∧ off % k = 0 ∧ block off <+: final.drop off where
  appends m := by
    show m <+: m ++ _ ++ _
    rw [List.append_assoc]
    exact List.prefix_append m _
  holds m hm hfinal := by
    have hpos := List.length_pos_of_ne_nil hm
    refine ⟨Nat.add_pos_left hpos _, ?_, ?_⟩
    · show (m.length + gap k m.length) % k = 0
      rw [gap, Nat.add_mod_mod]
      have hlt := Nat.mod_lt m.length hk
      have hdiv := Nat.div_add_mod m.length k
      have hsum : m.length + (k - m.length % k) = k * (m.length / k + 1) := by
        rw [Nat.mul_add]
        omega
      rw [hsum, Nat.mul_mod_right]
    · obtain ⟨rest, rfl⟩ := hfinal
      have hlength : (m ++ List.replicate (gap k m.length) fill).length =
          m.length + gap k m.length := by simp
      show block (m.length + gap k m.length) <+:
        ((m ++ List.replicate (gap k m.length) fill ++ block (m.length + gap k m.length)) ++
          rest).drop (m.length + gap k m.length)
      rw [List.append_assoc _ _ rest, ← hlength, List.drop_left, hlength]
      exact List.prefix_append _ _

/-- A loop achieves for every element what its body achieves for one. -/
lemma emitEach {w : α → Emit β γ} {R : α → γ → Prop} (h : ∀ x, Emits final (w x) (R x))
    (xs : List α) : Emits final (emitEach w xs) (List.Forall₂ R xs) := by
  induction xs with
  | nil => exact pure .nil
  | cons x xs ih =>
      exact (h x).bind fun y => ih.map fun ys hys hy => .cons hy hys

/-- The same for what may be missing. -/
lemma emitOption {w : α → Emit β γ} {R : α → γ → Prop} (h : ∀ x, Emits final (w x) (R x))
    (o : Option α) : Emits final (emitOption w o) (Option.Rel R o) := by
  cases o with
  | none => exact pure .none
  | some x => exact (h x).map fun y hy => .some hy

end Emits

end Emit

end ICDump
