/-
Numbers of variable length.

A number is written in digits to the base `b`, the least significant first, and its length is not
written: the digit at the position `k` is the last one when it is below the threshold `t k`.  The
digits that can stand there before the last are those from `t k` on, so the digits behind them count
`b - t k` times as much.  Positions are numbered in steps of `s`.
-/
import Mathlib.Data.Nat.Notation
import Mathlib.Logic.Basic

namespace ICDump

namespace Digits

/-- The digits of a number from a position on, with a bound on how many there are. -/
def write (b : ℕ) (t : ℕ → ℕ) (s : ℕ) : ℕ → ℕ → ℕ → List ℕ
  | 0, _, q => [q]
  | bound + 1, k, q =>
      if q < t k then [q]
      else (t k + (q - t k) % (b - t k)) :: write b t s bound (k + s) ((q - t k) / (b - t k))

/-- The number that digits stand for, from a position on. -/
def value (b : ℕ) (t : ℕ → ℕ) (s : ℕ) : ℕ → List ℕ → ℕ
  | _, [] => 0
  | k, d :: ds => d + (b - t k) * value b t s (k + s) ds

/-- The last digit, and no other, is below its threshold. -/
inductive Ends (t : ℕ → ℕ) (s : ℕ) : ℕ → List ℕ → Prop
  | last {k d : ℕ} (hd : d < t k) : Ends t s k [d]
  | more {k d : ℕ} {ds : List ℕ} (hd : t k ≤ d) (h : Ends t s (k + s) ds) : Ends t s k (d :: ds)

variable {b : ℕ} {t : ℕ → ℕ} {s : ℕ}

/-- The digits of a number stand for it. -/
lemma value_write (bound k q : ℕ) : value b t s k (write b t s bound k q) = q := by
  induction bound generalizing k q with
  | zero => simp [write, value]
  | succ bound ih =>
      rw [write]
      split
      · simp [value]
      · rename_i hq
        have hdiv := Nat.mod_add_div (q - t k) (b - t k)
        rw [value, ih]
        omega

/-- No other digits stand for the same number. -/
lemma value_inj {k : ℕ} {ds ds' : List ℕ} (h : Ends t s k ds) (h' : Ends t s k ds')
    (hds : ∀ d ∈ ds, d < b) (hds' : ∀ d ∈ ds', d < b)
    (hvalue : value b t s k ds = value b t s k ds') : ds = ds' := by
  induction h generalizing ds' with
  | @last k d hd =>
      cases h' with
      | last hd' => simpa [value] using hvalue
      | more hd' h' =>
          rw [value, value, value, Nat.mul_zero, Nat.add_zero] at hvalue
          omega
  | @more k d ds hd h ih =>
      cases h' with
      | last hd' =>
          rw [value, value, value, Nat.mul_zero, Nat.add_zero] at hvalue
          omega
      | @more _ d' ds' hd' h' =>
          obtain ⟨hlt, hds⟩ := List.forall_mem_cons.1 hds
          obtain ⟨hlt', hds'⟩ := List.forall_mem_cons.1 hds'
          rw [value, value] at hvalue
          generalize hv : value b t s (k + s) ds = v at hvalue ih
          generalize hv' : value b t s (k + s) ds' = v' at hvalue
          -- behind the threshold, `d` is a remainder for `b - t k`
          have hmod : d - t k + (b - t k) * v = d' - t k + (b - t k) * v' := by omega
          have hd_eq := congrArg (· % (b - t k)) hmod
          simp only [Nat.add_mul_mod_self_left] at hd_eq
          rw [Nat.mod_eq_of_lt (by omega), Nat.mod_eq_of_lt (by omega)] at hd_eq
          have hmul : (b - t k) * v = (b - t k) * v' := by omega
          have hv_eq : v = v' := Nat.eq_of_mul_eq_mul_left (by omega) hmul
          rw [show d = d' by omega, ih h' hds hds' (hv_eq.trans hv'.symm)]

section

variable (hpos : ∀ k, 0 < t k) (hlt : ∀ k, t k < b)

include hpos

lemma div_le_of_le {bound k q : ℕ} (hq : q ≤ bound + 1) (hk : ¬ q < t k) :
    (q - t k) / (b - t k) ≤ bound := by
  have hdiv := Nat.div_le_self (q - t k) (b - t k)
  have hk' := hpos k
  omega

/-- A number has as many digits at most as it is large, so a bound of that size is never met. -/
lemma ends_write {bound k q : ℕ} (hq : q ≤ bound) : Ends t s k (write b t s bound k q) := by
  induction bound generalizing k q with
  | zero =>
      have hk := hpos k
      exact .last (by omega)
  | succ bound ih =>
      rw [write]
      split
      · rename_i hk
        exact .last hk
      · rename_i hk
        exact .more (Nat.le_add_right _ _) (ih (div_le_of_le hpos hq hk))

include hlt

lemma lt_of_mem_write {bound k q : ℕ} (hq : q ≤ bound) :
    ∀ d ∈ write b t s bound k q, d < b := by
  induction bound generalizing k q with
  | zero =>
      have hk := hpos k
      have hk' := hlt k
      rw [write, List.forall_mem_singleton]
      omega
  | succ bound ih =>
      have hk' := hlt k
      rw [write]
      split
      · rw [List.forall_mem_singleton]
        omega
      · rename_i hk
        have hmod := Nat.mod_lt (q - t k) (show 0 < b - t k by omega)
        exact List.forall_mem_cons.2 ⟨by omega, ih (div_le_of_le hpos hq hk)⟩

end

end Digits

end ICDump
