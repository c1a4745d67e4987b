/-
Encodings are unique (`Punycode.cpp`).

The decoder inserts code points from the smallest on, and equal ones from the left to the right.  So
the code point that it inserts last is the largest one, and behind it there are smaller ones only:
it can be told from the result, and so can, one after another, all that were inserted before
(`Steps.unique`).  The numbers that moved the decoder from one to the next are then known, and so
are their digits.

Hence the encoder writes the only string that is read as its input, but for one that starts with a
delimiter behind which there is no other (`encode_eq_some_iff`).
-/
import ICDump.Swift.RoundTrip

namespace ICDump

namespace Punycode

/-! ### Digits -/

lemma digitValue_digitIndex {c : UInt8} {digit : ℕ} (h : digitIndex c = some digit) :
    digit < base ∧ c = digitValue digit := by
  have hall : ∀ n < 256, ∀ digit ∈ digitIndex (.ofNat n),
    digit < base ∧ UInt8.ofNat n = digitValue digit := by decide +kernel
  rw [← UInt8.ofNat_toNat (x := c)] at h ⊢
  exact hall c.toNat c.toNat_lt digit h

/-- What the decoder reads are the digits of a number, and it moves on by this number. -/
lemma decodeDelta_spec {bias k w i i' : ℕ} {input rest : List UInt8}
    (h : decodeDelta bias k w i input = some (i', rest)) :
    ∃ ds, Digits.Ends (threshold bias) base k ds ∧ (∀ d ∈ ds, d < base) ∧
      input = ds.map digitValue ++ rest ∧
      i' = i + w * Digits.value base (threshold bias) base k ds := by
  induction input generalizing k w i with
  | nil => cases h
  | cons c input ih =>
      rw [decodeDelta] at h
      cases hdigit : digitIndex c with
      | none =>
          rw [hdigit] at h
          cases h
      | some digit =>
          obtain ⟨hlt, rfl⟩ := digitValue_digitIndex hdigit
          simp only [hdigit] at h
          split_ifs at h with hfits hlast hweight
          · obtain ⟨rfl, rfl⟩ := Prod.mk.inj (Option.some.inj h)
            refine ⟨[digit], .last hlast, List.forall_mem_singleton.2 hlt, rfl, ?_⟩
            rw [Digits.value, Digits.value, Nat.mul_zero, Nat.add_zero, Nat.mul_comm]
          · obtain ⟨ds, hends, hds, rfl, rfl⟩ := ih h
            refine ⟨digit :: ds, .more (not_lt.1 hlast) hends, List.forall_mem_cons.2 ⟨hlt, hds⟩,
              rfl, ?_⟩
            rw [Digits.value, Nat.mul_add, Nat.mul_assoc, Nat.add_assoc, Nat.mul_comm digit]

/-! ### Steps -/

lemma insertIdx_eq {α : Type} {l : List α} {pos : ℕ} (h : pos ≤ l.length) (a : α) :
    l.insertIdx pos a = l.take pos ++ a :: l.drop pos := by
  have happend := insertIdx_append (l.take pos) (l.drop pos) a
  rwa [List.take_append_drop, List.length_take, Nat.min_eq_left h] at happend

namespace Decoding

/-- No code point is larger than `n`, and none from `i` on is `n`. -/
structure Ordered (d : Decoding) : Prop where
  take : ∀ c ∈ d.out.take d.i, c ≤ d.n
  drop : ∀ c ∈ d.out.drop d.i, c < d.n

lemma Ordered.le {d : Decoding} (h : d.Ordered) : ∀ c ∈ d.out, c ≤ d.n := by
  rw [← List.take_append_drop d.i d.out]
  exact List.forall_mem_append.2 ⟨h.take, fun c hc => (h.drop c hc).le⟩

/-- The decoder after it has moved on by `delta` and has inserted `n` at `pos`. -/
def moved (d : Decoding) (delta n pos : ℕ) : Decoding where
  n := n
  i := pos + 1
  bias := adapt delta (d.out.length + 1) (d.i == 0)
  out := d.out.take pos ++ n :: d.out.drop pos

/-- The decoder reads `w` and comes from `d` to another state. -/
inductive Steps (d : Decoding) : List UInt8 → Decoding → Prop
  | nil : Steps d [] d
  | snoc {w : List UInt8} {d' : Decoding} {ds : List ℕ} {n pos : ℕ} (h : Steps d w d')
      (hends : Digits.Ends (threshold d'.bias) base base ds) (hds : ∀ digit ∈ ds, digit < base)
      (hn : d'.n ≤ n) (hpos : pos ≤ d'.out.length)
      (hmoved : n * (d'.out.length + 1) + pos = d'.n * (d'.out.length + 1) +
        (d'.i + Digits.value base (threshold d'.bias) base base ds)) :
      Steps d (w ++ ds.map digitValue)
        (d'.moved (Digits.value base (threshold d'.bias) base base ds) n pos)

variable {d d' d₁ d₂ : Decoding} {w w' input rest : List UInt8}

lemma length_moved {delta n pos : ℕ} : (d.moved delta n pos).out.length = d.out.length + 1 := by
  rw [moved, List.length_append, List.length_cons, ← Nat.add_assoc, ← List.length_append,
    List.take_append_drop]

lemma Steps.length_le (h : Steps d w d') : d.out.length ≤ d'.out.length := by
  induction h with
  | nil => exact le_rfl
  | snoc _ _ _ _ _ _ ih =>
      rw [length_moved]
      omega

/-- A round is a step. -/
lemma Steps.round (h : Steps d w d₁) (hround : d₁.round input = some (d₂, rest)) :
    ∃ v, input = v ++ rest ∧ Steps d (w ++ v) d₂ := by
  obtain ⟨⟨i, rest'⟩, hdelta, hround⟩ := Option.bind_eq_some_iff.1 hround
  obtain ⟨d₂', hinsert, hround⟩ := Option.bind_eq_some_iff.1 hround
  obtain ⟨rfl, rfl⟩ := Prod.mk.inj (Option.some.inj hround)
  obtain ⟨ds, hends, hds, rfl, rfl⟩ := decodeDelta_spec hdelta
  refine ⟨_, rfl, ?_⟩
  rw [Nat.one_mul, Decoding.insert] at hinsert
  generalize hvalue : Digits.value base (threshold d₁.bias) base base ds = delta at hinsert
  dsimp only at hinsert
  split_ifs at hinsert
  obtain rfl := Option.some.inj hinsert
  have hlt : (d₁.i + delta) % (d₁.out.length + 1) < d₁.out.length + 1 :=
    Nat.mod_lt _ (Nat.succ_pos _)
  have hdiv := Nat.div_add_mod (d₁.i + delta) (d₁.out.length + 1)
  have hstep := h.snoc hends hds (Nat.le_add_right d₁.n ((d₁.i + delta) / (d₁.out.length + 1)))
    (Nat.lt_succ_iff.1 hlt) (by rw [hvalue, Nat.add_mul, Nat.mul_comm (_ / _)]; omega)
  rw [hvalue, moved] at hstep
  rwa [Nat.add_sub_cancel_left, insertIdx_eq (Nat.lt_succ_iff.1 hlt)]

lemma Steps.run {cs : List ℕ} (h : Steps d w d₁) (hrun : d₁.run input = some cs) :
    ∃ d₂, Steps d (w ++ input) d₂ ∧ d₂.out = cs := by
  induction hlen : input.length using Nat.strong_induction_on generalizing input w d₁ with
  | _ len ih =>
      by_cases hnil : input = []
      · subst hnil
        rw [List.append_nil]
        exact ⟨d₁, h, Option.some.inj hrun⟩
      · cases hround : d₁.round input with
        | none =>
            rw [run_of_round_none hnil hround] at hrun
            cases hrun
        | some r =>
            obtain ⟨d', rest⟩ := r
            have hlt := round_length hround
            rw [run_of_round hround] at hrun
            obtain ⟨v, rfl, h'⟩ := h.round hround
            rw [← List.append_assoc]
            exact ih _ (by omega) h' hrun rfl

/-- A code point is inserted behind those that are smaller or equal and before smaller ones. -/
lemma Ordered.parts {delta n pos : ℕ} (h : d.Ordered) (hn : d.n ≤ n)
    (hmoved : n * (d.out.length + 1) + pos = d.n * (d.out.length + 1) + (d.i + delta)) :
    (∀ c ∈ d.out.take pos, c ≤ n) ∧ ∀ c ∈ d.out.drop pos, c < n := by
  constructor
  · intro c hc
    exact (h.le c (List.mem_of_mem_take hc)).trans hn
  · intro c hc
    rcases hn.eq_or_lt with heq | hlt
    · have hmem : c ∈ d.out.drop d.i := by
        rw [heq] at hmoved
        obtain ⟨k, rfl⟩ := Nat.exists_eq_add_of_le (show d.i ≤ pos by omega)
        rw [← List.drop_drop] at hc
        exact List.mem_of_mem_drop hc
      exact (h.drop c hmem).trans_le hn
    · exact (h.le c (List.mem_of_mem_drop hc)).trans_lt hlt

lemma Steps.ordered (h : Steps d w d') (hd : d.Ordered) : d'.Ordered := by
  induction h with
  | nil => exact hd
  | @snoc w d' ds n pos _ _ _ hn hpos hmoved ih =>
      obtain ⟨htake, hdrop⟩ := ih.parts hn hmoved
      have hlength : (d'.out.take pos ++ [n]).length = pos + 1 := by
        rw [List.length_append, List.length_take, Nat.min_eq_left hpos, List.length_singleton]
      have hout : d'.out.take pos ++ n :: d'.out.drop pos =
          (d'.out.take pos ++ [n]) ++ d'.out.drop pos := by
        rw [List.append_assoc, List.singleton_append]
      constructor
      · rw [moved, hout, ← hlength, List.take_left]
        exact List.forall_mem_append.2 ⟨htake, List.forall_mem_singleton.2 le_rfl⟩
      · rw [moved, hout, ← hlength, List.drop_left]
        exact hdrop

end Decoding

/-- The place of the last one of the largest code points can be told. -/
lemma append_cons_inj {l l' m m' : List ℕ} {a b : ℕ} (hl : ∀ c ∈ l, c ≤ a) (hl' : ∀ c ∈ l', c < a)
    (hm : ∀ c ∈ m, c ≤ b) (hm' : ∀ c ∈ m', c < b) (h : l ++ a :: l' = m ++ b :: m') :
    l = m ∧ a = b ∧ l' = m' := by
  have hab : a = b := by
    have hle : ∀ c ∈ m ++ b :: m', c ≤ b :=
      List.forall_mem_append.2 ⟨hm, List.forall_mem_cons.2 ⟨le_rfl, fun c hc => (hm' c hc).le⟩⟩
    have hle' : ∀ c ∈ l ++ a :: l', c ≤ a :=
      List.forall_mem_append.2 ⟨hl, List.forall_mem_cons.2 ⟨le_rfl, fun c hc => (hl' c hc).le⟩⟩
    refine le_antisymm (hle a ?_) (hle' b ?_)
    · rw [← h]
      simp
    · rw [h]
      simp
  subst hab
  rcases List.append_eq_append_iff.1 h with ⟨as, rfl, has⟩ | ⟨bs, rfl, hbs⟩
  · cases as with
    | nil => simpa using has
    | cons c as =>
        obtain ⟨rfl, rfl⟩ := List.cons.inj has
        exact absurd (hl' a (by simp)) (lt_irrefl a)
  · cases bs with
    | nil => simpa [eq_comm] using hbs
    | cons c bs =>
        obtain ⟨rfl, rfl⟩ := List.cons.inj hbs
        exact absurd (hm' a (by simp)) (lt_irrefl a)

namespace Decoding

variable {d d₁ d₂ : Decoding} {w₁ w₂ : List UInt8}

/-- **What was read can be told from the result.** -/
lemma Steps.unique (hd : d.Ordered) (h₁ : Steps d w₁ d₁) (h₂ : Steps d w₂ d₂)
    (hout : d₁.out = d₂.out) : w₁ = w₂ ∧ d₁ = d₂ := by
  induction h₁ generalizing w₂ d₂ with
  | nil =>
      cases h₂ with
      | nil => exact ⟨rfl, rfl⟩
      | snoc h₂ _ _ _ _ _ =>
          have hlength := congrArg List.length hout
          have hle := h₂.length_le
          rw [length_moved] at hlength
          omega
  | @snoc w₁ e₁ ds₁ n₁ pos₁ h₁ hends₁ hds₁ hn₁ hpos₁ hmoved₁ ih =>
      cases h₂ with
      | nil =>
          have hlength := congrArg List.length hout
          have hle := h₁.length_le
          rw [length_moved] at hlength
          omega
      | @snoc w₂ e₂ ds₂ n₂ pos₂ h₂ hends₂ hds₂ hn₂ hpos₂ hmoved₂ =>
          obtain ⟨htake₁, hdrop₁⟩ := (h₁.ordered hd).parts hn₁ hmoved₁
          obtain ⟨htake₂, hdrop₂⟩ := (h₂.ordered hd).parts hn₂ hmoved₂
          obtain ⟨htake, rfl, hdrop⟩ := append_cons_inj htake₁ hdrop₁ htake₂ hdrop₂ hout
          have hout' : e₁.out = e₂.out := by
            rw [← List.take_append_drop pos₁ e₁.out, htake, hdrop, List.take_append_drop]
          have hpos : pos₁ = pos₂ := by
            have hlength := congrArg List.length htake
            rwa [List.length_take, List.length_take, Nat.min_eq_left hpos₁,
              Nat.min_eq_left hpos₂] at hlength
          obtain ⟨rfl, rfl⟩ := ih h₂ hout'
          subst hpos
          have hds : ds₁ = ds₂ := Digits.value_inj hends₁ hends₂ hds₁ hds₂ (by omega)
          rw [hds]
          exact ⟨rfl, rfl⟩

/-- Only code points that are not basic are inserted. -/
lemma Steps.basics {w : List UInt8} {d' : Decoding} (h : Steps d w d') (hd : initialN ≤ d.n) :
    initialN ≤ d'.n ∧ Punycode.basics d'.out = Punycode.basics d.out := by
  induction h with
  | nil => exact ⟨hd, rfl⟩
  | @snoc w d' ds n pos _ _ _ hn hpos hmoved ih =>
      obtain ⟨hle, hbasics⟩ := ih
      have hlt : ¬ n < 0x80 := Nat.not_lt.2 (hle.trans hn)
      refine ⟨hle.trans hn, ?_⟩
      rw [← hbasics, moved, Punycode.basics, Punycode.basics, List.filter_append,
        List.filter_cons_of_neg (by simpa using hlt), ← List.filter_append, List.take_append_drop]

end Decoding

/-! ### Whole strings -/

lemma splitLast_some {a : UInt8} {input l l' : List UInt8} (h : splitLast a input = some (l, l')) :
    input = l ++ a :: l' := by
  induction input generalizing l with
  | nil => cases h
  | cons c input ih =>
      rw [splitLast] at h
      cases hsplit : splitLast a input with
      | some r =>
          rw [hsplit] at h
          obtain ⟨rfl, rfl⟩ := Prod.mk.inj (Option.some.inj h)
          rw [List.cons_append, ← ih hsplit]
      | none =>
          rw [hsplit] at h
          dsimp only at h
          split_ifs at h with hc
          obtain ⟨rfl, rfl⟩ := Prod.mk.inj (Option.some.inj h)
          rw [hc, List.nil_append]

/-- There is something before the last delimiter, if there is one. -/
def Canonical (input : List UInt8) : Prop := (splitLast delimiter input).map Prod.fst ≠ some []

instance (input : List UInt8) : Decidable (Canonical input) :=
  inferInstanceAs (Decidable (_ ≠ _))

/-- What is before and behind the last delimiter. -/
def parts (input : List UInt8) : List UInt8 × List UInt8 :=
  (splitLast delimiter input).getD ([], input)

lemma parts_inj {input input' : List UInt8} (h : Canonical input) (h' : Canonical input')
    (hparts : parts input = parts input') : input = input' := by
  rw [Canonical] at h h'
  rw [parts, parts] at hparts
  cases hsplit : splitLast delimiter input with
  | none =>
      cases hsplit' : splitLast delimiter input' with
      | none =>
          rw [hsplit, hsplit'] at hparts
          exact congrArg Prod.snd hparts
      | some r =>
          rw [hsplit, hsplit'] at hparts
          rw [hsplit'] at h'
          exact absurd (congrArg (some ∘ Prod.fst) hparts).symm h'
  | some r =>
      cases hsplit' : splitLast delimiter input' with
      | none =>
          rw [hsplit, hsplit'] at hparts
          rw [hsplit] at h
          exact absurd (congrArg (some ∘ Prod.fst) hparts) h
      | some r' =>
          rw [hsplit, hsplit'] at hparts
          obtain rfl : r = r' := hparts
          rw [splitLast_some hsplit, splitLast_some hsplit']

lemma toNat_injective : Function.Injective (List.map UInt8.toNat) :=
  List.map_injective_iff.2 fun _ _ => UInt8.toNat_inj.1

/-- The decoder starts with the basic code points, and goes on behind the last delimiter. -/
lemma decodePunycode_steps {input : List UInt8} {cs : List ℕ}
    (h : decodePunycode input = some cs) : (parts input).1.map UInt8.toNat = basics cs ∧
      ∃ d, Decoding.Steps ⟨initialN, 0, initialBias, basics cs⟩ (parts input).2 d ∧ d.out = cs := by
  have hrun : (if (parts input).1.any (· > 0x7f) then none else
      (⟨initialN, 0, initialBias, (parts input).1.map UInt8.toNat⟩ : Decoding).run
        (parts input).2) = some cs := h
  split_ifs at hrun with hany
  obtain ⟨d, hsteps, hout⟩ := Decoding.Steps.nil.run hrun
  rw [List.nil_append] at hsteps
  have hbasics : (parts input).1.map UInt8.toNat = basics cs := by
    rw [← hout, (hsteps.basics le_rfl).2]
    refine (List.filter_eq_self.2 (List.forall_mem_map.2 fun c hc => ?_)).symm
    rw [List.any_eq_true] at hany
    by_contra hlt
    refine hany ⟨c, hc, ?_⟩
    rw [decide_eq_true_eq, Nat.not_lt] at hlt
    rw [decide_eq_true_eq, gt_iff_lt, UInt8.lt_iff_toNat_lt]
    exact hlt
  refine ⟨hbasics, d, ?_, hout⟩
  rw [← hbasics]
  exact hsteps

lemma decodePunycode_inj {input input' : List UInt8} {cs : List ℕ} (hc : Canonical input)
    (hc' : Canonical input') (h : decodePunycode input = some cs)
    (h' : decodePunycode input' = some cs) : input = input' := by
  obtain ⟨hbasics, d, hsteps, hout⟩ := decodePunycode_steps h
  obtain ⟨hbasics', d', hsteps', hout'⟩ := decodePunycode_steps h'
  have hordered : Decoding.Ordered ⟨initialN, 0, initialBias, basics cs⟩ :=
    ⟨List.forall_mem_nil _, fun _ hc => lt_of_mem_basics hc⟩
  obtain ⟨hbehind, -⟩ := hsteps.unique hordered hsteps' (hout.trans hout'.symm)
  exact parts_inj hc hc' (Prod.ext (toNat_injective (hbasics.trans hbasics'.symm)) hbehind)

lemma canonical_encode {input : List ℕ} {out : List UInt8} (h : encodePunycode input = some out) :
    Canonical out := by
  obtain ⟨hencode, rfl⟩ := encodePunycode_eq_some.1 h
  obtain ⟨w, hout, hw⟩ := encode_out (valid_of_encode hencode)
  rw [Canonical, hout, splitLast_written input hw]
  split
  · rename_i hbasics
    rw [Option.map_some, Ne, Option.some.injEq, List.map_eq_nil_iff]
    exact List.ne_nil_of_length_pos hbasics
  · exact Option.some_ne_none _ |>.symm

/-- **The encoder writes the only string that is read as its input**, up to a delimiter at the
start. -/
theorem encode_eq_some_iff {cs : List ℕ} (hlength : cs.length < 1927) (out : List UInt8) :
    encodePunycode cs = some out ↔
      decodePunycode out = some cs ∧ (∀ c ∈ cs, isValidUnicodeScalar c = true) ∧ Canonical out := by
  constructor
  · intro h
    exact ⟨decodePunycode_of_short hlength h, valid_of_encode (encodePunycode_eq_some.1 h).1,
      canonical_encode h⟩
  · rintro ⟨h, hvalid, hcanonical⟩
    obtain ⟨out', hout'⟩ := Option.isSome_iff_exists.1 (encodePunycode_isSome hlength hvalid)
    rw [hout', decodePunycode_inj hcanonical (canonical_encode hout') h
      (decodePunycode_of_short hlength hout')]

theorem encode_eq_some_iff_umlaut :
    [98, 252, 98].length < 1927 ∧ (encodePunycode [98, 252, 98] = some [98, 98, 95, 110, 111, 97] ↔
      decodePunycode [98, 98, 95, 110, 111, 97] = some [98, 252, 98] ∧
        (∀ c ∈ [98, 252, 98], isValidUnicodeScalar c = true) ∧
        Canonical [98, 98, 95, 110, 111, 97]) :=
  ⟨by decide, encode_eq_some_iff (by decide) _⟩

end Punycode

end ICDump
