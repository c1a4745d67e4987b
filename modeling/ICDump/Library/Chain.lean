/-
Chains of links on a finite type.

A partial function `link` gives to every point at most one successor.  `chain` follows
the links from a point, with a bound on how many, and answers nothing when the bound is
too small.  On a finite type some bound is large enough exactly when no point that can be
reached lies on a cycle.
-/
import Mathlib.Data.Fintype.Card
import Mathlib.Logic.Relation

namespace ICDump

namespace Link

variable {α : Type*} {link : α → Option α}

/-- The relation of a point to its successor. -/
def To (link : α → Option α) (a b : α) : Prop := link a = some b

/-- No point that is reached from `a` lies on a cycle of links. -/
def CycleFree (link : α → Option α) (a : α) : Prop :=
  ∀ b, Relation.ReflTransGen (To link) a b → ¬ Relation.TransGen (To link) b b

/-- The points from `a` on, if there are at most `n` of them. -/
def chain (link : α → Option α) : ℕ → α → Option (List α)
  | 0, _ => none
  | n + 1, a =>
      match link a with
      | none => some [a]
      | some b => (chain link n b).map (a :: ·)

lemma chain_succ_of_none {a : α} (h : link a = none) (n : ℕ) :
    chain link (n + 1) a = some [a] := by
  rw [chain, h]

lemma chain_succ_of_some {a b : α} (h : link a = some b) (n : ℕ) :
    chain link (n + 1) a = (chain link n b).map (a :: ·) := by
  rw [chain, h]

/-- A larger bound gives the same chain. -/
lemma chain_mono {n m : ℕ} (hnm : n ≤ m) {a : α} {l : List α} (h : chain link n a = some l) :
    chain link m a = some l := by
  induction n generalizing m a l with
  | zero => exact absurd h (by simp [chain])
  | succ n ih =>
      obtain ⟨m, rfl⟩ := Nat.exists_eq_succ_of_ne_zero (show m ≠ 0 by omega)
      cases hlink : link a with
      | none =>
          rw [chain_succ_of_none hlink] at h ⊢
          exact h
      | some b =>
          rw [chain_succ_of_some hlink, Option.map_eq_some_iff] at h
          obtain ⟨l', hl', rfl⟩ := h
          rw [chain_succ_of_some hlink, ih (by omega) hl', Option.map_some]

/-- A link that is the same at all points of a chain has the same chain. -/
lemma chain_congr {link' : α → Option α} {n : ℕ} {a : α} {l : List α}
    (h : chain link n a = some l) (hlink : ∀ b ∈ l, link' b = link b) :
    chain link' n a = some l := by
  induction n generalizing a l with
  | zero => exact absurd h (by simp [chain])
  | succ n ih =>
      cases hl : link a with
      | none =>
          rw [chain_succ_of_none hl, Option.some.injEq] at h
          subst h
          exact chain_succ_of_none ((hlink a (List.mem_singleton_self a)).trans hl) n
      | some b =>
          rw [chain_succ_of_some hl, Option.map_eq_some_iff] at h
          obtain ⟨l', hl', rfl⟩ := h
          obtain ⟨ha, hlink'⟩ := List.forall_mem_cons.1 hlink
          rw [chain_succ_of_some (ha.trans hl), ih hl' hlink', Option.map_some]

/-- A chain starts where it is started. -/
lemma exists_eq_cons_of_chain {n : ℕ} {a : α} {l : List α} (h : chain link n a = some l) :
    ∃ l', l = a :: l' := by
  cases n with
  | zero => exact absurd h (by simp [chain])
  | succ n =>
      cases hlink : link a with
      | none =>
          rw [chain_succ_of_none hlink, Option.some.injEq] at h
          exact ⟨[], h.symm⟩
      | some b =>
          rw [chain_succ_of_some hlink, Option.map_eq_some_iff] at h
          obtain ⟨l', -, rfl⟩ := h
          exact ⟨l', rfl⟩

/-- A chain that ends meets no cycle. -/
lemma cycleFree_of_chain {n : ℕ} {a : α} {l : List α} (h : chain link n a = some l) :
    CycleFree link a := by
  induction n generalizing a l with
  | zero => exact absurd h (by simp [chain])
  | succ n ih =>
      cases hlink : link a with
      | none =>
          -- nothing but `a` is reached, and no link leads on from it
          have hend : ∀ c, ¬ To link a c := fun c hc => by simp [To, hlink] at hc
          intro b hb
          rcases hb.cases_head with rfl | ⟨c, hc, -⟩
          · intro hcycle
            obtain ⟨c, hc, -⟩ := Relation.TransGen.head'_iff.1 hcycle
            exact hend c hc
          · exact absurd hc (hend c)
      | some b =>
          rw [chain_succ_of_some hlink, Option.map_eq_some_iff] at h
          obtain ⟨l', hl', -⟩ := h
          have hb : CycleFree link b := ih hl'
          intro c hc
          rcases hc.cases_head with rfl | ⟨d, hd, hdc⟩
          · -- a cycle through `a` goes through its successor
            intro hcycle
            obtain ⟨d, hd, hda⟩ := Relation.TransGen.head'_iff.1 hcycle
            obtain rfl : b = d := Option.some.inj (hlink.symm.trans hd)
            exact hb a hda hcycle
          · obtain rfl : b = d := Option.some.inj (hlink.symm.trans hd)
            exact hb c hdc

/-- Without a cycle, the chain ends: links between the points that are reached lead downwards
in a well-founded order. -/
lemma exists_chain_of_cycleFree [Finite α] {a : α} (h : CycleFree link a) :
    ∃ n l, chain link n a = some l := by
  let below : α → α → Prop := fun c b =>
    Relation.ReflTransGen (To link) a b ∧ Relation.TransGen (To link) b c
  -- on a finite type it is enough that no point is below itself
  have : IsTrans α below := ⟨fun _ _ _ hdc hcb => ⟨hcb.1, hcb.2.trans hdc.2⟩⟩
  have : Std.Irrefl below := ⟨fun b hb => h b hb.1 hb.2⟩
  have hwf : WellFounded below := Finite.wellFounded_of_trans_of_irrefl below
  have hreach : ∀ b, Relation.ReflTransGen (To link) a b → ∃ n l, chain link n b = some l := by
    intro b
    induction b using hwf.induction with
    | _ b ih =>
        intro hb
        cases hlink : link b with
        | none => exact ⟨1, [b], chain_succ_of_none hlink 0⟩
        | some c =>
            -- the successor is below `b`, so its chain ends
            obtain ⟨n, l, hl⟩ := ih c ⟨hb, .single hlink⟩ (hb.tail hlink)
            exact ⟨n + 1, b :: l, by rw [chain_succ_of_some hlink, hl, Option.map_some]⟩
  exact hreach a .refl

/-- **A chain of links ends exactly when it meets no cycle.** -/
theorem exists_chain_iff [Finite α] {a : α} :
    (∃ n, (chain link n a).isSome) ↔ CycleFree link a := by
  constructor
  · rintro ⟨n, hn⟩
    obtain ⟨l, hl⟩ := Option.isSome_iff_exists.1 hn
    exact cycleFree_of_chain hl
  · intro h
    obtain ⟨n, l, hl⟩ := exists_chain_of_cycleFree h
    exact ⟨n, by rw [hl, Option.isSome_some]⟩

/-- One bound is large enough for finitely many points. -/
lemma exists_bound_of_cycleFree [Finite α] {as : List α} (h : ∀ a ∈ as, CycleFree link a) :
    ∃ N, ∀ n ≥ N, ∀ a ∈ as, (chain link n a).isSome := by
  induction as with
  | nil => exact ⟨0, by simp⟩
  | cons a as ih =>
      obtain ⟨N, hN⟩ := ih fun b hb => h b (List.mem_cons_of_mem a hb)
      obtain ⟨M, l, hl⟩ := exists_chain_of_cycleFree (h a List.mem_cons_self)
      refine ⟨max N M, fun n hn b hb => ?_⟩
      rcases List.mem_cons.1 hb with rfl | hb
      · rw [chain_mono (le_of_max_le_right hn) hl, Option.isSome_some]
      · exact hN n (le_of_max_le_left hn) b hb

end Link

end ICDump
