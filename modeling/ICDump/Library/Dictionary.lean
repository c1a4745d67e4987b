/-
Texts that refer to what they have said before.

A list of words is gone through from its start.  A word that is known is referred to by its number.
Any other is written out, and it is known from then on if it fits and there is room for it.  Whoever
reads the result learns the same words at the same places, so the numbers mean the same.
-/
import Mathlib.Data.List.Basic
import Mathlib.Data.Nat.Notation

namespace ICDump

/-- Words that are written out, and between them numbers of words. -/
inductive Plan (α : Type)
  | literal (lit : List α)
  | refer (lit : List α) (i : ℕ) (w : α) (rest : Plan α)

namespace Plan

variable {α : Type}

/-- The plan with one more word that is written out first. -/
def cons (w : α) : Plan α → Plan α
  | literal lit => literal (w :: lit)
  | refer lit i w' rest => refer (w :: lit) i w' rest

/-- The words that a plan stands for. -/
def words : Plan α → List α
  | literal lit => lit
  | refer lit _ w rest => lit ++ w :: rest.words

@[simp] lemma words_cons (w : α) (p : Plan α) : (p.cons w).words = w :: p.words := by
  cases p <;> rfl

end Plan

namespace Dictionary

variable {α : Type} (fits : α → Bool) (room : ℕ)

/-- A word that is written out is learned when it fits and there is room for it. -/
def learn (known : List α) (w : α) : List α :=
  if fits w ∧ known.length < room then known ++ [w] else known

/-- The words that are known behind a plan. -/
def after (known : List α) : Plan α → List α
  | .literal lit => lit.foldl (learn fits room) known
  | .refer lit _ _ rest => after (lit.foldl (learn fits room) known) rest

/-- Every number is that of the word it stands for. -/
def Sound (known : List α) : Plan α → Prop
  | .literal _ => True
  | .refer lit i w rest =>
      (lit.foldl (learn fits room) known)[i]? = some w ∧
        Sound (lit.foldl (learn fits room) known) rest

/-- The plan of a list of words, which refers to every word that is known. -/
def write [BEq α] (known : List α) : List α → Plan α
  | [] => .literal []
  | w :: ws =>
      match known.idxOf? w with
      | some i => .refer [] i w (write known ws)
      | none => (write (learn fits room known w) ws).cons w

variable {fits room}

@[simp] lemma after_cons (known : List α) (w : α) (p : Plan α) :
    after fits room known (p.cons w) = after fits room (learn fits room known w) p := by
  cases p <;> rfl

@[simp] lemma sound_cons (known : List α) (w : α) (p : Plan α) :
    Sound fits room known (p.cons w) ↔ Sound fits room (learn fits room known w) p := by
  cases p <;> rfl

lemma length_learn_le {known : List α} {w : α} (h : known.length ≤ room) :
    (learn fits room known w).length ≤ room := by
  rw [learn]
  split
  · rw [List.length_append, List.length_singleton]
    omega
  · exact h

lemma length_foldl_learn_le {known : List α} (h : known.length ≤ room) (ws : List α) :
    (ws.foldl (learn fits room) known).length ≤ room := by
  induction ws generalizing known with
  | nil => exact h
  | cons w ws ih => exact ih (length_learn_le h)

lemma forall_mem_learn {known : List α} {w : α} (h : ∀ v ∈ known, fits v = true) :
    ∀ v ∈ learn fits room known w, fits v = true := by
  rw [learn]
  split
  · rename_i hw
    exact List.forall_mem_append.2 ⟨h, List.forall_mem_singleton.2 hw.1⟩
  · exact h

lemma forall_mem_foldl_learn {known : List α} (h : ∀ v ∈ known, fits v = true) (ws : List α) :
    ∀ v ∈ ws.foldl (learn fits room) known, fits v = true := by
  induction ws generalizing known with
  | nil => exact h
  | cons w ws ih => exact ih (forall_mem_learn h)

lemma length_after_le {known : List α} (h : known.length ≤ room) (p : Plan α) :
    (after fits room known p).length ≤ room := by
  induction p generalizing known with
  | literal lit => exact length_foldl_learn_le h lit
  | refer lit i w rest ih => exact ih (length_foldl_learn_le h lit)

lemma forall_mem_after {known : List α} (h : ∀ v ∈ known, fits v = true) (p : Plan α) :
    ∀ v ∈ after fits room known p, fits v = true := by
  induction p generalizing known with
  | literal lit => exact forall_mem_foldl_learn h lit
  | refer lit i w rest ih => exact ih (forall_mem_foldl_learn h lit)

section

variable [BEq α]

lemma write_of_some {known ws : List α} {w : α} {i : ℕ} (h : known.idxOf? w = some i) :
    write fits room known (w :: ws) = .refer [] i w (write fits room known ws) := by
  rw [write, h]

lemma write_of_none {known ws : List α} {w : α} (h : known.idxOf? w = none) :
    write fits room known (w :: ws) = (write fits room (learn fits room known w) ws).cons w := by
  rw [write, h]

variable [LawfulBEq α]

lemma getElem?_of_idxOf? {known : List α} {w : α} {i : ℕ} (h : known.idxOf? w = some i) :
    known[i]? = some w := by
  rw [List.idxOf?, List.findIdx?_eq_some_iff_getElem] at h
  obtain ⟨hi, hw, -⟩ := h
  rw [List.getElem?_eq_getElem hi, eq_of_beq hw]

/-- What is written stands for the words, and its numbers are right. -/
theorem write_spec (known ws : List α) :
    (write fits room known ws).words = ws ∧ Sound fits room known (write fits room known ws) := by
  induction ws generalizing known with
  | nil => exact ⟨rfl, trivial⟩
  | cons w ws ih =>
      cases h : known.idxOf? w with
      | some i =>
          obtain ⟨hwords, hsound⟩ := ih known
          rw [write_of_some h]
          exact ⟨by rw [Plan.words, hwords, List.nil_append], getElem?_of_idxOf? h, hsound⟩
      | none =>
          obtain ⟨hwords, hsound⟩ := ih (learn fits room known w)
          rw [write_of_none h]
          exact ⟨by rw [Plan.words_cons, hwords], (sound_cons known w _).2 hsound⟩

end

end Dictionary

end ICDump
