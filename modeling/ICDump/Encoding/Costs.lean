/-
The work of the decoder.

A type string comes from a file, so it may be anything.  What the decoder does with it is bounded
by its length: it accesses the string at most fifteen times for each character
(`length_accesses_le`), because the iterator never goes back and every round of a loop passes a
character.  What is counted are the accesses: the rest of the string that a diagnostic quotes is
one of them, however long it is.  And `process` calls itself only behind a letter that opens a
type with parts, so the recursion is one level deeper than there are such letters
(`process_depth`).
-/
import ICDump.Encoding.Accesses
import ICDump.Encoding.Grammar

namespace ICDump

/-! ### Accesses -/

/-- Between the two iterators at most `rate` things are done to the string for each character that
is passed, and `extra` more. -/
structure Spends (rate extra : ℕ) (s s' : Iter) : Prop where
  pos_le : s.pos ≤ s'.pos
  log_le : s'.log.length + rate * s.pos ≤ s.log.length + rate * s'.pos + extra

namespace IterM

variable {encoded : Str} {s s' : Iter} {c : Char} {p : Char → Bool} {b : Bool} {n : ℕ}

/-! #### Statements -/

lemma atEnd_eq_some :
    atEnd encoded s = (some b, s') ↔ b = (s.pos == encoded.length) ∧ s' = s := by
  show (some (s.pos == encoded.length), s) = (some b, s') ↔ _
  rw [Prod.mk.injEq, Option.some.injEq, eq_comm, @eq_comm _ s]

lemma test_of_end (h : s.pos = encoded.length) : test encoded p s = (some false, s) := by
  have hend : atEnd encoded s = (some true, s) :=
    atEnd_eq_some.2 ⟨(beq_iff_eq.2 h).symm, rfl⟩
  rw [test, Attempt.bind_of_some hend]
  rfl

lemma test_of_ne (h : s.pos ≠ encoded.length) : test encoded p s =
    (some (p (encoded.getD s.pos (Char.ofNat 0))), { s with log := s.log ++ [.deref s.pos] }) := by
  have hend : atEnd encoded s = (some false, s) :=
    atEnd_eq_some.2 ⟨(beq_eq_false_iff_ne.2 h).symm, rfl⟩
  rw [test, Attempt.bind_of_some hend]
  rfl

/-- A test does not move the iterator, and at the end of the string it does nothing. -/
lemma test_spends (h : test encoded p s = (some b, s')) :
    s'.pos = s.pos ∧ s'.log.length ≤ s.log.length + 1 ∧
      (b = true → s.pos ≠ encoded.length) ∧ (s.pos = encoded.length → s' = s) := by
  by_cases hend : s.pos = encoded.length
  · rw [test_of_end hend] at h
    obtain ⟨hb, rfl⟩ := Prod.mk.inj h
    obtain rfl := Option.some.inj hb
    exact ⟨rfl, by omega, by simp, fun _ => rfl⟩
  · rw [test_of_ne hend] at h
    obtain ⟨-, rfl⟩ := Prod.mk.inj h
    exact ⟨rfl, by simp, fun _ => hend, fun h' => absurd h' hend⟩

lemma deref_spends (h : deref encoded s = (some c, s')) :
    s'.pos = s.pos ∧ s'.log.length = s.log.length + 1 := by
  obtain ⟨-, rfl⟩ := Prod.mk.inj h
  exact ⟨rfl, List.length_append⟩

lemma next_spends {u : Unit} (h : next s = (some u, s')) :
    s'.pos = s.pos + 1 ∧ s'.log = s.log := by
  obtain ⟨-, rfl⟩ := Prod.mk.inj h
  exact ⟨rfl, rfl⟩

lemma take_spends (h : take encoded s = (some c, s')) :
    s'.pos = s.pos + 1 ∧ s'.log.length = s.log.length + 1 := by
  obtain ⟨_, s₁, hderef, h⟩ := Attempt.bind_eq_some.1 h
  obtain ⟨_, s₂, hnext, h⟩ := Attempt.bind_eq_some.1 h
  obtain ⟨-, rfl⟩ := Attempt.pure_eq_some.1 h
  have hderef := deref_spends hderef
  have hnext := next_spends hnext
  exact ⟨by omega, by rw [hnext.2, hderef.2]⟩

lemma skipChar_spends {u : Unit} (h : skipChar encoded c s = (some u, s')) :
    Spends 1 1 s s' ∧ (s.pos = encoded.length → s' = s) := by
  obtain ⟨b, s₁, htest, h⟩ := Attempt.bind_eq_some.1 h
  have htest := test_spends htest
  split at h
  · rename_i hb
    have hnext := next_spends h
    have hlog := congrArg List.length hnext.2
    exact ⟨⟨by omega, by omega⟩, fun hend => absurd hend (htest.2.2.1 hb)⟩
  · obtain ⟨-, rfl⟩ := Attempt.pure_eq_some.1 h
    exact ⟨⟨by omega, by omega⟩, htest.2.2.2⟩

/-- A loop whose condition is a test, and whose body passes a character or two for what it does. -/
lemma whileLoop_spends {α : Type} {body : IterM α} {as : List α} {rate : ℕ}
    (hbody : ∀ {s s' a}, s.pos ≠ encoded.length → body s = (some a, s') →
      s.pos ≤ s'.pos ∧ s'.log.length + 1 + rate * s.pos ≤ s.log.length + rate * s'.pos)
    (h : Attempt.whileLoop (test encoded p) body n s = (some as, s')) :
    Spends rate 1 s s' ∧ (s.pos = encoded.length → s' = s) := by
  refine Attempt.whileLoop_induction
    (R := fun s s' => Spends rate 1 s s' ∧ (s.pos = encoded.length → s' = s))
    (fun htest => ?_) (fun htest hrun ih => ?_) h
  · obtain ⟨hpos, hlog, -, hend⟩ := test_spends htest
    exact ⟨⟨by omega, by rw [hpos]; omega⟩, hend⟩
  · obtain ⟨hpos, hlog, hne, -⟩ := test_spends htest
    obtain ⟨hle, hspent⟩ := hbody (by rw [hpos]; exact hne rfl) hrun
    rw [hpos] at hle hspent
    have hrest := ih.1.log_le
    have hrest' := ih.1.pos_le
    exact ⟨⟨by omega, by omega⟩, fun hend => absurd hend (hne rfl)⟩

/-! #### Tokens -/

lemma skipDigits_spends {u : Unit} (h : skipDigits encoded n s = (some u, s')) :
    Spends 1 1 s s' ∧ (s.pos = encoded.length → s' = s) := by
  obtain ⟨_, s₁, hloop, h⟩ := Attempt.bind_eq_some.1 h
  obtain ⟨-, rfl⟩ := Attempt.pure_eq_some.1 h
  refine whileLoop_spends (fun _ hnext => ?_) hloop
  obtain ⟨hpos, hlog⟩ := next_spends hnext
  exact ⟨by omega, by rw [hlog]; omega⟩

/-- The loops that collect the characters up to a delimiter. -/
lemma takeLoop_spends {as : Str}
    (h : Attempt.whileLoop (test encoded p) (take encoded) n s = (some as, s')) :
    Spends 2 1 s s' ∧ (s.pos = encoded.length → s' = s) := by
  refine whileLoop_spends (fun _ htake => ?_) h
  obtain ⟨hpos, hlog⟩ := take_spends htake
  exact ⟨by omega, by omega⟩

lemma readOptName_spends {name : Str} (h : readOptName encoded n s = (some name, s')) :
    Spends 2 2 s s' ∧ (s.pos = encoded.length → s' = s) := by
  obtain ⟨b, s₁, htest, h⟩ := Attempt.bind_eq_some.1 h
  obtain ⟨hpos, hlog, hne, hend⟩ := test_spends htest
  split at h
  · rename_i hb
    obtain ⟨_, s₂, htake, h⟩ := Attempt.bind_eq_some.1 h
    obtain ⟨name', s₃, hloop, h⟩ := Attempt.bind_eq_some.1 h
    obtain ⟨_, s₄, hskip, h⟩ := Attempt.bind_eq_some.1 h
    obtain ⟨-, rfl⟩ := Attempt.pure_eq_some.1 h
    obtain ⟨hpos₂, hlog₂⟩ := take_spends htake
    obtain ⟨⟨hpos₃, hlog₃⟩, -⟩ := takeLoop_spends hloop
    obtain ⟨⟨hpos₄, hlog₄⟩, -⟩ := skipChar_spends hskip
    exact ⟨⟨by omega, by omega⟩, fun hend => absurd hend (hne hb)⟩
  · obtain ⟨-, rfl⟩ := Attempt.pure_eq_some.1 h
    exact ⟨⟨by omega, by omega⟩, hend⟩

lemma readStrNumberFrom_spends {num num' : Str}
    (h : readStrNumberFrom encoded num n s = (some num', s')) : Spends 2 1 s s' := by
  induction n generalizing s num with
  | zero => exact absurd (congrArg Prod.fst h) (by simp [readStrNumberFrom, Attempt.giveUp])
  | succ n ih =>
      obtain ⟨b, s₁, htest, h⟩ := Attempt.bind_eq_some.1 h
      obtain ⟨hpos, hlog, -, -⟩ := test_spends htest
      split at h
      · obtain ⟨_, s₂, htake, h⟩ := Attempt.bind_eq_some.1 h
        obtain ⟨hpos₂, hlog₂⟩ := take_spends htake
        obtain ⟨hpos₃, hlog₃⟩ := ih h
        exact ⟨by omega, by omega⟩
      · obtain ⟨-, rfl⟩ := Attempt.pure_eq_some.1 h
        exact ⟨by omega, by omega⟩

/-- A qualifier is passed for the look that is taken at it. -/
lemma processSpecifier_spends {spec : TypeSpecifier}
    (h : processSpecifier encoded s = (some spec, s')) :
    s.pos ≤ s'.pos ∧ s'.log.length ≤ s.log.length + 1 ∧
      (s.pos = encoded.length → s' = s) ∧ (spec ≠ .unknown → s'.pos = s.pos + 1) ∧
      (s'.pos ≠ s.pos → s'.pos = s.pos + 1) := by
  obtain ⟨e, s₁, hatEnd, h⟩ := Attempt.bind_eq_some.1 h
  obtain ⟨rfl, rfl⟩ := atEnd_eq_some.1 hatEnd
  split at h
  · obtain ⟨rfl, rfl⟩ := Attempt.pure_eq_some.1 h
    exact ⟨le_rfl, by omega, fun _ => rfl, fun h => absurd rfl h, fun h => absurd rfl h⟩
  · rename_i hne
    have hne' := mt beq_iff_eq.2 hne
    obtain ⟨c, s₂, hderef, h⟩ := Attempt.bind_eq_some.1 h
    obtain ⟨hpos₂, hlog₂⟩ := deref_spends hderef
    split at h
    · obtain ⟨rfl, rfl⟩ := Attempt.pure_eq_some.1 h
      exact ⟨by omega, by omega, fun hend => absurd hend hne', fun h => absurd rfl h,
        fun h => absurd hpos₂ h⟩
    · obtain ⟨_, s₃, hnext, h⟩ := Attempt.bind_eq_some.1 h
      obtain ⟨-, rfl⟩ := Attempt.pure_eq_some.1 h
      obtain ⟨hpos₃, hlog₃⟩ := next_spends hnext
      exact ⟨by omega, by rw [hlog₃]; omega, fun hend => absurd hend hne', fun _ => by omega,
        fun _ => by omega⟩

lemma processSpecifiers_spends {u : Unit} (h : processSpecifiers encoded n s = (some u, s')) :
    Spends 1 1 s s' := by
  induction n generalizing s with
  | zero => exact absurd (congrArg Prod.fst h) (by simp [processSpecifiers, Attempt.giveUp])
  | succ n ih =>
      obtain ⟨spec, s₁, hspec, hrun⟩ := Attempt.bind_eq_some.1 h
      obtain ⟨hpos, hlog, -, hpassed, -⟩ := processSpecifier_spends hspec
      obtain ⟨e, s₂, hatEnd, hrest⟩ := Attempt.bind_eq_some.1 hrun
      rw [(atEnd_eq_some.1 hatEnd).2] at hrest
      split at hrest
      · obtain ⟨-, rfl⟩ := Attempt.pure_eq_some.1 hrest
        exact ⟨hpos, by omega⟩
      · split at hrest
        · obtain ⟨-, rfl⟩ := Attempt.pure_eq_some.1 hrest
          exact ⟨hpos, by omega⟩
        · rename_i hne
          have hpos₁ := hpassed hne
          obtain ⟨hpos₂, hlog₂⟩ := ih hrest
          exact ⟨by omega, by omega⟩

/-! #### Composite types -/

/-- What is known of `process`: at the end of the string it does nothing, and elsewhere the
characters that it passes pay for what it does, with three left over. -/
structure Works (encoded : Str) (proc : IterM Ty) : Prop where
  stays : ∀ {s s' t}, s.pos = encoded.length → proc s = (some t, s') → s' = s
  passes : ∀ {s s' t}, s.pos ≠ encoded.length → proc s = (some t, s') →
    s.pos ≤ s'.pos ∧ s'.log.length + 3 + 15 * s.pos ≤ s.log.length + 15 * s'.pos

variable {proc : IterM Ty} {t : Ty}

lemma processAttr_spends (hproc : Works encoded proc) {attr : AttrTy}
    (hne : s.pos ≠ encoded.length) (h : processAttr encoded n proc s = (some attr, s')) :
    s.pos ≤ s'.pos ∧ s'.log.length + 1 + 15 * s.pos ≤ s.log.length + 15 * s'.pos := by
  obtain ⟨name, s₁, hname, h⟩ := Attempt.bind_eq_some.1 h
  obtain ⟨type, s₂, htype, h⟩ := Attempt.bind_eq_some.1 h
  obtain ⟨-, rfl⟩ := Attempt.pure_eq_some.1 h
  obtain ⟨⟨hpos₁, hlog₁⟩, -⟩ := readOptName_spends hname
  by_cases hend : s₁.pos = encoded.length
  · -- the name has passed a character
    obtain rfl := hproc.stays hend htype
    exact ⟨by omega, by omega⟩
  · obtain ⟨hpos₂, hlog₂⟩ := hproc.passes hend htype
    exact ⟨by omega, by omega⟩

/-- The loops on the fields. -/
lemma attrLoop_spends (hproc : Works encoded proc) {attrs : List AttrTy} {bound : ℕ}
    (h : Attempt.whileLoop (test encoded p) (processAttr encoded bound proc) n s =
      (some attrs, s')) : Spends 15 1 s s' :=
  (whileLoop_spends (processAttr_spends hproc) h).1

/-- The name of a structure is looked at three times. -/
lemma structName_spends {name : Str} (h : Attempt.whileLoop (do
      if ← test encoded (· != '=') then
        let c ← deref encoded
        return c != '}'
      else return false) (take encoded) n s = (some name, s')) : Spends 3 2 s s' := by
  have hcond : ∀ {s s' : Iter} {b : Bool}, (do
      if ← test encoded (· != '=') then
        let c ← deref encoded
        return c != '}'
      else return false : IterM Bool) s = (some b, s') →
        s'.pos = s.pos ∧ s'.log.length ≤ s.log.length + 2 := by
    intro s s' b h
    obtain ⟨b', s₁, htest, h⟩ := Attempt.bind_eq_some.1 h
    obtain ⟨hpos, hlog, -, -⟩ := test_spends htest
    split at h
    · obtain ⟨c, s₂, hderef, h⟩ := Attempt.bind_eq_some.1 h
      obtain ⟨-, rfl⟩ := Attempt.pure_eq_some.1 h
      obtain ⟨hpos₂, hlog₂⟩ := deref_spends hderef
      exact ⟨by omega, by omega⟩
    · obtain ⟨-, rfl⟩ := Attempt.pure_eq_some.1 h
      exact ⟨hpos, by omega⟩
  refine Attempt.whileLoop_induction (R := Spends 3 2) (fun hfalse => ?_)
    (fun htrue htake ih => ?_) h
  · obtain ⟨hpos, hlog⟩ := hcond hfalse
    exact ⟨by omega, by omega⟩
  · obtain ⟨hpos, hlog⟩ := hcond htrue
    obtain ⟨hpos₂, hlog₂⟩ := take_spends htake
    obtain ⟨hpos₃, hlog₃⟩ := ih
    exact ⟨by omega, by omega⟩

lemma processStructure_spends (hproc : Works encoded proc)
    (h : processStructure encoded n proc s = (some t, s')) : Spends 15 9 s s' := by
  obtain ⟨_, s₁, hskip, h⟩ := Attempt.bind_eq_some.1 h
  obtain ⟨name, s₂, hname, h⟩ := Attempt.bind_eq_some.1 h
  obtain ⟨b, s₃, htest, h⟩ := Attempt.bind_eq_some.1 h
  obtain ⟨⟨hpos₁, hlog₁⟩, -⟩ := skipChar_spends hskip
  obtain ⟨hpos₂, hlog₂⟩ := structName_spends hname
  obtain ⟨hpos₃, hlog₃, -, -⟩ := test_spends htest
  split at h
  · obtain ⟨_, s₄, hnext, h⟩ := Attempt.bind_eq_some.1 h
    obtain ⟨-, rfl⟩ := Attempt.pure_eq_some.1 h
    obtain ⟨hpos₄, hlog₄⟩ := next_spends hnext
    exact ⟨by omega, by rw [hlog₄]; omega⟩
  · obtain ⟨_, s₄, hskip, h⟩ := Attempt.bind_eq_some.1 h
    obtain ⟨b', s₅, htest, h⟩ := Attempt.bind_eq_some.1 h
    obtain ⟨⟨hpos₄, hlog₄⟩, -⟩ := skipChar_spends hskip
    obtain ⟨hpos₅, hlog₅, -, -⟩ := test_spends htest
    split at h
    · obtain ⟨_, s₆, hnext, h⟩ := Attempt.bind_eq_some.1 h
      obtain ⟨-, rfl⟩ := Attempt.pure_eq_some.1 h
      obtain ⟨hpos₆, hlog₆⟩ := next_spends hnext
      exact ⟨by omega, by rw [hlog₆]; omega⟩
    · obtain ⟨attrs, s₆, hloop, h⟩ := Attempt.bind_eq_some.1 h
      obtain ⟨b'', s₇, htest, h⟩ := Attempt.bind_eq_some.1 h
      obtain ⟨hpos₆, hlog₆⟩ := attrLoop_spends hproc hloop
      obtain ⟨hpos₇, hlog₇, -, -⟩ := test_spends htest
      split at h
      · obtain ⟨_, s₈, hnext, h⟩ := Attempt.bind_eq_some.1 h
        obtain ⟨-, rfl⟩ := Attempt.pure_eq_some.1 h
        obtain ⟨hpos₈, hlog₈⟩ := next_spends hnext
        exact ⟨by omega, by rw [hlog₈]; omega⟩
      · obtain ⟨c, s₈, hderef, h⟩ := Attempt.bind_eq_some.1 h
        obtain ⟨-, rfl⟩ := Attempt.pure_eq_some.1 h
        obtain ⟨hpos₈, hlog₈⟩ := deref_spends hderef
        exact ⟨by omega, by omega⟩

lemma processUnion_spends (hproc : Works encoded proc)
    (h : processUnion encoded n proc s = (some t, s')) : Spends 15 9 s s' := by
  obtain ⟨_, s₁, hskip, h⟩ := Attempt.bind_eq_some.1 h
  obtain ⟨name, s₂, hname, h⟩ := Attempt.bind_eq_some.1 h
  obtain ⟨_, s₃, hskip', h⟩ := Attempt.bind_eq_some.1 h
  obtain ⟨b, s₄, htest, h⟩ := Attempt.bind_eq_some.1 h
  obtain ⟨⟨hpos₁, hlog₁⟩, -⟩ := skipChar_spends hskip
  obtain ⟨⟨hpos₂, hlog₂⟩, -⟩ := takeLoop_spends hname
  obtain ⟨⟨hpos₃, hlog₃⟩, -⟩ := skipChar_spends hskip'
  obtain ⟨hpos₄, hlog₄, -, -⟩ := test_spends htest
  split at h
  · obtain ⟨_, s₅, hnext, h⟩ := Attempt.bind_eq_some.1 h
    obtain ⟨-, rfl⟩ := Attempt.pure_eq_some.1 h
    obtain ⟨hpos₅, hlog₅⟩ := next_spends hnext
    exact ⟨by omega, by rw [hlog₅]; omega⟩
  · obtain ⟨attrs, s₅, hloop, h⟩ := Attempt.bind_eq_some.1 h
    obtain ⟨b', s₆, htest, h⟩ := Attempt.bind_eq_some.1 h
    obtain ⟨hpos₅, hlog₅⟩ := attrLoop_spends hproc hloop
    obtain ⟨hpos₆, hlog₆, -, -⟩ := test_spends htest
    split at h
    · obtain ⟨_, s₇, hnext, h⟩ := Attempt.bind_eq_some.1 h
      obtain ⟨-, rfl⟩ := Attempt.pure_eq_some.1 h
      obtain ⟨hpos₇, hlog₇⟩ := next_spends hnext
      exact ⟨by omega, by rw [hlog₇]; omega⟩
    · obtain ⟨-, rfl⟩ := Attempt.pure_eq_some.1 h
      exact ⟨by omega, by omega⟩

lemma processBitfield_spends (h : processBitfield encoded n s = (some t, s')) :
    Spends 15 9 s s' := by
  obtain ⟨num, s₁, hnum, h⟩ := Attempt.bind_eq_some.1 h
  obtain ⟨hpos₁, hlog₁⟩ := readStrNumberFrom_spends hnum
  split at h <;>
    · obtain ⟨-, rfl⟩ := Attempt.pure_eq_some.1 h
      exact ⟨by omega, by omega⟩

lemma processArray_spends (hproc : Works encoded proc)
    (h : processArray encoded n proc s = (some t, s')) : Spends 15 9 s s' := by
  obtain ⟨size, s₁, hsize, h⟩ := Attempt.bind_eq_some.1 h
  obtain ⟨hpos₁, hlog₁⟩ := readStrNumberFrom_spends hsize
  split at h
  · obtain ⟨-, rfl⟩ := Attempt.pure_eq_some.1 h
    exact ⟨by omega, by omega⟩
  · obtain ⟨types, s₂, hloop, h⟩ := Attempt.bind_eq_some.1 h
    obtain ⟨b, s₃, htest, h⟩ := Attempt.bind_eq_some.1 h
    have hspent : Spends 15 1 s₁ s₂ := (whileLoop_spends (fun hne hrun => by
      obtain ⟨hpos, hlog⟩ := hproc.passes hne hrun
      exact ⟨hpos, by omega⟩) hloop).1
    obtain ⟨hpos₂, hlog₂⟩ := hspent
    obtain ⟨hpos₃, hlog₃, -, -⟩ := test_spends htest
    split at h
    · obtain ⟨_, s₄, hnext, h⟩ := Attempt.bind_eq_some.1 h
      obtain ⟨-, rfl⟩ := Attempt.pure_eq_some.1 h
      obtain ⟨hpos₄, hlog₄⟩ := next_spends hnext
      exact ⟨by omega, by rw [hlog₄]; omega⟩
    · obtain ⟨-, rfl⟩ := Attempt.pure_eq_some.1 h
      exact ⟨by omega, by omega⟩

lemma substr_spends {u : Unit} {start : ℕ} (h : substr start s = (some u, s')) :
    s'.pos = s.pos ∧ s'.log.length = s.log.length + 1 := by
  obtain ⟨-, rfl⟩ := Prod.mk.inj h
  exact ⟨rfl, List.length_append⟩

lemma processPointer_spends (hproc : Works encoded proc)
    (h : processPointer encoded proc s = (some t, s')) : Spends 15 9 s s' := by
  obtain ⟨b, s₁, htest, h⟩ := Attempt.bind_eq_some.1 h
  obtain ⟨hpos₁, hlog₁, -, -⟩ := test_spends htest
  split at h
  · obtain ⟨_, s₂, hnext, h⟩ := Attempt.bind_eq_some.1 h
    obtain ⟨-, rfl⟩ := Attempt.pure_eq_some.1 h
    obtain ⟨hpos₂, hlog₂⟩ := next_spends hnext
    exact ⟨by omega, by rw [hlog₂]; omega⟩
  · obtain ⟨pos, s₂, hpos, h⟩ := Attempt.bind_eq_some.1 h
    obtain ⟨-, rfl⟩ := Prod.mk.inj hpos
    obtain ⟨ptrType, s₃, hrun, h⟩ := Attempt.bind_eq_some.1 h
    have hspent : Spends 15 0 s₁ s₃ := by
      by_cases hend : s₁.pos = encoded.length
      · obtain rfl := hproc.stays hend hrun
        exact ⟨le_rfl, le_rfl⟩
      · obtain ⟨hpos, hlog⟩ := hproc.passes hend hrun
        exact ⟨hpos, by omega⟩
    obtain ⟨hpos₃, hlog₃⟩ := hspent
    split at h
    · obtain ⟨_, s₄, hsubstr, h⟩ := Attempt.bind_eq_some.1 h
      obtain ⟨-, rfl⟩ := Attempt.pure_eq_some.1 h
      obtain ⟨hpos₄, hlog₄⟩ := substr_spends hsubstr
      exact ⟨by omega, by omega⟩
    · obtain ⟨-, rfl⟩ := Attempt.pure_eq_some.1 h
      exact ⟨by omega, by omega⟩

lemma processObject_spends (h : processObject encoded n s = (some t, s')) : Spends 15 9 s s' := by
  obtain ⟨b, s₁, htest, h⟩ := Attempt.bind_eq_some.1 h
  obtain ⟨hpos₁, hlog₁, -, -⟩ := test_spends htest
  split at h
  · obtain ⟨_, s₂, hnext, h⟩ := Attempt.bind_eq_some.1 h
    obtain ⟨-, rfl⟩ := Attempt.pure_eq_some.1 h
    obtain ⟨hpos₂, hlog₂⟩ := next_spends hnext
    exact ⟨by omega, by rw [hlog₂]; omega⟩
  · obtain ⟨name, s₂, hname, h⟩ := Attempt.bind_eq_some.1 h
    obtain ⟨-, rfl⟩ := Attempt.pure_eq_some.1 h
    obtain ⟨⟨hpos₂, hlog₂⟩, -⟩ := readOptName_spends hname
    exact ⟨by omega, by omega⟩

lemma unsupported_spends (h : unsupported s = (some t, s')) : Spends 15 9 s s' := by
  obtain ⟨pos, s₁, hpos, h⟩ := Attempt.bind_eq_some.1 h
  obtain ⟨-, rfl⟩ := Prod.mk.inj hpos
  obtain ⟨_, s₂, hsubstr, h⟩ := Attempt.bind_eq_some.1 h
  obtain ⟨-, rfl⟩ := Attempt.pure_eq_some.1 h
  obtain ⟨hpos₂, hlog₂⟩ := substr_spends hsubstr
  exact ⟨by omega, by omega⟩

/-! #### `process` and `decode_type` -/

lemma processCode_spends (hproc : Works encoded proc)
    (h : processCode encoded n proc c s = (some t, s')) : Spends 15 9 s s' := by
  unfold processCode at h
  split at h
  case h_18 => exact processArray_spends hproc h
  case h_19 => exact processStructure_spends hproc h
  case h_20 => exact processUnion_spends hproc h
  case h_21 => exact processBitfield_spends h
  case h_23 => exact processPointer_spends hproc h
  case h_24 => exact processObject_spends h
  case h_25 => exact unsupported_spends h
  all_goals
    obtain ⟨-, rfl⟩ := Attempt.pure_eq_some.1 h
    exact ⟨le_rfl, Nat.le_add_right _ _⟩

/-- **What `process` does is paid for by the characters that it passes.** -/
theorem process_works (encoded : Str) (n : ℕ) : Works encoded (process encoded n) := by
  induction n with
  | zero =>
      have hnone : ∀ {s s' t}, process encoded 0 s ≠ (some t, s') := fun h =>
        absurd (congrArg Prod.fst h) (by simp [process, Attempt.giveUp])
      exact ⟨fun _ h => absurd h hnone, fun _ h => absurd h hnone⟩
  | succ n ih =>
      constructor
      · intro s s' t hend hrun
        obtain ⟨_, s₁, hskip, h⟩ := Attempt.bind_eq_some.1 hrun
        rw [(skipDigits_spends hskip).2 hend] at h
        obtain ⟨e, s₂, hatEnd, h⟩ := Attempt.bind_eq_some.1 h
        obtain ⟨rfl, rfl⟩ := atEnd_eq_some.1 hatEnd
        rw [if_pos (beq_iff_eq.2 hend)] at h
        exact (Attempt.pure_eq_some.1 h).2
      · intro s s' t hne hrun
        obtain ⟨_, s₁, hskip, h⟩ := Attempt.bind_eq_some.1 hrun
        obtain ⟨⟨hpos₁, hlog₁⟩, -⟩ := skipDigits_spends hskip
        obtain ⟨e, s₂, hatEnd, h⟩ := Attempt.bind_eq_some.1 h
        obtain ⟨rfl, rfl⟩ := atEnd_eq_some.1 hatEnd
        split at h
        · -- all that was left are digits, of which there is one at least
          rename_i hend
          obtain ⟨-, rfl⟩ := Attempt.pure_eq_some.1 h
          have hend' := beq_iff_eq.1 hend
          exact ⟨by omega, by omega⟩
        · obtain ⟨_, s₃, hspecs, h⟩ := Attempt.bind_eq_some.1 h
          obtain ⟨hpos₃, hlog₃⟩ := processSpecifiers_spends hspecs
          obtain ⟨e', s₄, hatEnd', h⟩ := Attempt.bind_eq_some.1 h
          obtain ⟨rfl, rfl⟩ := atEnd_eq_some.1 hatEnd'
          split at h
          · rename_i hend
            obtain ⟨-, rfl⟩ := Attempt.pure_eq_some.1 h
            have hend' := beq_iff_eq.1 hend
            exact ⟨by omega, by omega⟩
          · obtain ⟨c, s₅, htake, h⟩ := Attempt.bind_eq_some.1 h
            obtain ⟨hpos₅, hlog₅⟩ := take_spends htake
            obtain ⟨hpos₆, hlog₆⟩ := processCode_spends ih h
            exact ⟨by omega, by omega⟩

lemma decodeType_spends {types : List Ty} (h : decodeType encoded n s = (some types, s')) :
    s'.log.length + 15 * s.pos ≤ s.log.length + 15 * s'.pos := by
  rw [decodeType] at h
  split at h
  · obtain ⟨-, rfl⟩ := Attempt.pure_eq_some.1 h
    exact le_rfl
  · obtain ⟨_, s₁, hloop, h⟩ := Attempt.bind_eq_some.1 h
    obtain ⟨-, rfl⟩ := Attempt.pure_eq_some.1 h
    have hcond : ∀ {s s' : Iter} {b : Bool},
        (do return !(← atEnd encoded) : IterM Bool) s = (some b, s') →
          s' = s ∧ (b = true → s.pos ≠ encoded.length) := by
      intro s s' b h
      obtain ⟨e, s₁, hatEnd, h⟩ := Attempt.bind_eq_some.1 h
      obtain ⟨rfl, rfl⟩ := atEnd_eq_some.1 hatEnd
      obtain ⟨rfl, rfl⟩ := Attempt.pure_eq_some.1 h
      exact ⟨rfl, by simp⟩
    refine (Attempt.whileLoop_induction (R := Spends 15 0) (fun hfalse => ?_)
      (fun htrue hrun ih => ?_) hloop).log_le
    · obtain ⟨rfl, -⟩ := hcond hfalse
      exact ⟨le_rfl, le_rfl⟩
    · obtain ⟨rfl, hne⟩ := hcond htrue
      obtain ⟨spec, s₂, hspec, hrun⟩ := Attempt.bind_eq_some.1 hrun
      obtain ⟨hpos₂, hlog₂, -, -, hone⟩ := processSpecifier_spends hspec
      obtain ⟨hpos₄, hlog₄⟩ := ih
      have hne' := hne rfl
      by_cases hend : s₂.pos = encoded.length
      · -- the qualifier was the last character
        obtain rfl := (process_works encoded n).stays hend hrun
        exact ⟨by omega, by omega⟩
      · obtain ⟨hpos₃, hlog₃⟩ := (process_works encoded n).passes hend hrun
        exact ⟨by omega, by omega⟩

end IterM

/-- **The decoder accesses a string at most fifteen times for each of its characters.** -/
theorem length_accesses_le (w : Str) : (accesses w).length ≤ 15 * w.length := by
  obtain ⟨ps, hps⟩ := exists_splits w
  obtain ⟨-, hrun⟩ := Yields.decodeType hps (Nat.lt_succ_self _) List.suffix_rfl
  obtain ⟨l, hl, -⟩ := hrun []
  have hspent := IterM.decodeType_spends hl
  rw [cursorAt, Nat.sub_self] at hl
  rw [accesses, hl]
  simpa [cursorAt] using hspent

/-! ### Recursion -/

/-- The letters behind which `process` calls itself. -/
def isOpener (c : Char) : Bool := c == '[' || c == '{' || c == '(' || c == '^'

/-- How many of them there are. -/
def openers (it : Str) : ℕ := it.countP isOpener

/-- Behind the other letters, `process` does not call itself. -/
lemma processCode_of_not_opener {c : Char} (hc : isOpener c = false) (proc proc' : Reader Char Ty)
    (it : Str) : processCode proc c it = processCode proc' c it := by
  cases codeView c with
  | primitive p => rw [processCode_code, processCode_code]
  | cls | selector | unknown | bitField | object => rfl
  | array | struct | union | pointer => exact absurd hc (by decide)
  | other hc => rw [ICDump.processCode_other hc, ICDump.processCode_other hc]

lemma processStep_descends : Reader.Descends openers processStep where
  forward := processStep_forward
  congr := by
    intro p q hp hq it h
    have hsuf := (processSpecifiers_suffix (skipDigits it)).trans (skipDigits_suffix it)
    rw [processStep, processStep]
    cases hcode : processSpecifiers (skipDigits it) with
    | nil => rfl
    | cons c it' =>
        rw [hcode] at hsuf
        cases hc : isOpener c with
        | false => exact processCode_of_not_opener hc p q it'
        | true =>
            refine processCode_congr hp c fun it'' hit => h it'' (hit.trans
              ((List.suffix_cons c it').trans hsuf)) ?_
            have hle : openers it'' ≤ openers it' := hit.sublist.countP_le
            have hcons : openers (c :: it') = openers it' + 1 := List.countP_cons_of_pos hc
            have hle' : openers (c :: it') ≤ openers it := hsuf.sublist.countP_le
            omega

/-- `n` pointers, and a number at the end. -/
def pointers (n : ℕ) : Str := List.replicate n '^' ++ ['i']

lemma pointers_succ (n : ℕ) : pointers (n + 1) = '^' :: pointers n := rfl

lemma head?_pointers (n : ℕ) : (pointers n).head? ≠ some '?' := by
  cases n with
  | zero => decide
  | succ n => simp [pointers_succ]

lemma openers_pointers (n : ℕ) : openers (pointers n) = n := by
  rw [openers, pointers, List.countP_append, List.countP_replicate]
  rfl

lemma process_pointers (n : ℕ) : (process (pointers n)).1 ≠ .null := by
  induction n with
  | zero =>
      have hint : process ['i'] = (.primitive .int, []) := process_code rfl rfl []
      rw [pointers, List.replicate_zero, List.nil_append, hint]
      exact Ty.noConfusion
  | succ n ih =>
      rw [pointers_succ, process_code rfl rfl, processCode_pointer,
        processPointer_of_ne (head?_pointers n), if_neg (mt Ty.isNull_iff.1 ih)]
      simp

lemma fixBounded_pointers (n : ℕ) :
    (Reader.fixBounded processStep .null n (pointers n)).1 = .null := by
  induction n with
  | zero => rfl
  | succ n ih =>
      show (processPointer (Reader.fixBounded processStep .null n) (pointers n)).1 = _
      rw [processPointer_of_ne (head?_pointers n), ih]
      rfl

/-- A call is made behind such a letter. -/
lemma Calls.openers_lt {it it' : Str} (h : Calls it it') : openers it' < openers it := by
  obtain ⟨c, hc, rest, hcode, hsuf⟩ := h.exists_code
  have hopen : isOpener c = true := by
    simp only [List.mem_cons, List.not_mem_nil, or_false] at hc
    rcases hc with rfl | rfl | rfl | rfl <;> rfl
  have hcons : openers (c :: rest) = openers rest + 1 := List.countP_cons_of_pos hopen
  have hle : openers it' ≤ openers rest := hsuf.sublist.countP_le
  have hle' : openers (c :: rest) ≤ openers it := (hcode ▸ codeAt_suffix it).sublist.countP_le
  omega

/-- `process` lies below itself as often as there are such letters, at most. -/
lemma length_le_openers {it : Str} {l : List Str} (h : List.IsChain Calls (it :: l)) :
    l.length ≤ openers it := by
  induction l generalizing it with
  | nil => exact Nat.zero_le _
  | cons it' l ih =>
      obtain ⟨hcall, hrest⟩ := List.isChain_cons_cons.1 h
      exact (ih hrest).trans_lt hcall.openers_lt

lemma calls_pointers (n : ℕ) : Calls (pointers (n + 1)) (pointers n) :=
  .pointer (pointers_succ n ▸ rfl) (head?_pointers n)

/-- Each pointer is one level. -/
lemma exists_chain_pointers (n : ℕ) :
    ∃ l, List.IsChain Calls (pointers n :: l) ∧ l.length = n := by
  induction n with
  | zero => exact ⟨[], .singleton _, rfl⟩
  | succ n ih =>
      obtain ⟨l, hchain, hlen⟩ := ih
      exact ⟨pointers n :: l, List.isChain_cons_cons.2 ⟨calls_pointers n, hchain⟩,
        congrArg (· + 1) hlen⟩

/-- **The recursion of `process` is at most one level deeper than there are letters that open a type
with parts**, and there are strings on which it is as deep: calls that lie below each other are no
more than there are such letters, and as many levels make what `process` makes. -/
theorem process_depth (n : ℕ) :
    (∀ it l, openers it ≤ n → List.IsChain Calls (it :: l) → l.length ≤ n) ∧
      (∃ it l, openers it = n ∧ List.IsChain Calls (it :: l) ∧ l.length = n) ∧
      (∀ it, openers it ≤ n → Reader.fixBounded processStep .null (n + 1) it = process it) ∧
      ∃ it, openers it = n ∧ Reader.fixBounded processStep .null n it ≠ process it := by
  refine ⟨fun it l hit hchain => (length_le_openers hchain).trans hit, ?_, fun it hit => ?_,
    pointers n, openers_pointers n, fun h => ?_⟩
  · obtain ⟨l, hchain, hlen⟩ := exists_chain_pointers n
    exact ⟨pointers n, l, openers_pointers n, hchain, hlen⟩
  · have hle : openers it ≤ it.length := List.countP_le_length
    exact Reader.fixBounded_of_measure_lt processStep_descends (by omega) (by omega)
  · refine process_pointers n ?_
    rw [← h, fixBounded_pointers]

end ICDump
