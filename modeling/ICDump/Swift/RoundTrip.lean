/-
What is encoded is decoded (`Punycode.cpp`).

The encoder and the decoder are run side by side.  The encoder goes through the input once for each
code point `n`; the decoder has the part of the input that is written so far, which is the code
points below `n`, and those equal to `n` that the encoder has passed (`Synced`).  The delta of the
encoder is the number of steps that the decoder is behind.  So every number that is written moves
the decoder to where the next code point belongs.

The decoder checks whether an integer would overflow, and the encoder makes other checks.  They
agree on inputs of up to `1927` code points; on longer ones the decoder may give up, but it never
makes anything else of what the encoder has written (`decode_encode`).
-/
import Mathlib.Data.List.Basic
import ICDump.Library.Digits
import ICDump.Swift.Punycode

namespace ICDump

namespace Punycode

/-! ### Digits -/

lemma threshold_pos (bias k : ℕ) : 0 < threshold bias k := by
  unfold threshold tmin tmax
  split_ifs <;> omega

lemma threshold_lt (bias k : ℕ) : threshold bias k < base := by
  unfold threshold tmin tmax base
  split_ifs <;> omega

lemma digitIndex_digitValue {digit : ℕ} (h : digit < base) :
    digitIndex (digitValue digit) = some digit := by
  have hall : ∀ digit < base, digitIndex (digitValue digit) = some digit := by decide
  exact hall digit h

/-- The digits of the encoder are the letters for those of the library. -/
lemma encodeDelta_eq (bias bound k q : ℕ) : encodeDelta bias bound k q =
    (Digits.write base (threshold bias) base bound k q).map digitValue := by
  induction bound generalizing k q with
  | zero => rfl
  | succ bound ih =>
      rw [encodeDelta, Digits.write]
      simp only [ih]
      split <;> rfl

/-- The biggest bias that there is for integers. -/
def maxBias : ℕ := 226

lemma adaptLoop_le (bound : ℕ) {delta k j : ℕ} (hdelta : delta ≤ 455 * 35 ^ j)
    (hk : k + 36 * j ≤ 180) :
    (adaptLoop bound delta k).2 ≤ 180 ∧
      ((adaptLoop bound delta k).1 ≤ 455 ∨ bound < delta) := by
  induction bound generalizing delta k j with
  | zero =>
      refine ⟨by show k ≤ 180; omega, ?_⟩
      show delta ≤ 455 ∨ 0 < delta
      omega
  | succ bound ih =>
      have hlimit : (base - tmin) * tmax / 2 = 455 := rfl
      rw [adaptLoop, hlimit]
      split
      · rename_i hgt
        cases j with
        | zero => omega
        | succ j =>
            have hdiv : delta / (base - tmin) ≤ 455 * 35 ^ j := by
              rw [Nat.pow_succ] at hdelta
              show delta / 35 ≤ _
              omega
            have hstep : k + base + 36 * j ≤ 180 := by
              show k + 36 + 36 * j ≤ 180
              omega
            obtain ⟨hle, h⟩ := ih hdiv hstep
            refine ⟨hle, h.imp_right fun h => ?_⟩
            have hlt : delta / (base - tmin) < delta := Nat.div_lt_self (by omega) (by decide)
            omega
      · rename_i hle
        exact ⟨by show k ≤ 180; omega, Or.inl (by show delta ≤ 455; omega)⟩

lemma adapt_le {delta numpoints : ℕ} (hdelta : delta ≤ intMax) (firsttime : Bool) :
    adapt delta numpoints firsttime ≤ maxBias := by
  have hfirst : (if firsttime then delta / damp else delta / 2) ≤ delta / 2 := by
    split
    · exact Nat.div_le_div_left (by decide) (by decide)
    · exact le_rfl
  rw [adapt]
  generalize (if firsttime then delta / damp else delta / 2) = d at hfirst ⊢
  have hd : d + d / numpoints ≤ 455 * 35 ^ 5 := by
    have hdiv := Nat.div_le_self d numpoints
    have hmax : intMax = 2147483647 := rfl
    omega
  obtain ⟨hk, hdone⟩ := adaptLoop_le (d + d / numpoints) (k := 0) hd (by omega)
  generalize adaptLoop (d + d / numpoints) (d + d / numpoints) 0 = r at hk hdone ⊢
  have hr : r.1 ≤ 455 := hdone.resolve_right (lt_irrefl _)
  have hquot : (base - tmin + 1) * r.1 / (r.1 + skew) ≤ 36 := by
    show 36 * r.1 / (r.1 + 38) ≤ 36
    rw [Nat.div_le_iff_le_mul_add_pred (by omega)]
    omega
  show r.2 + (base - tmin + 1) * r.1 / (r.1 + skew) ≤ 226
  omega

/-- The weight of the digits does not overflow: either there are few of them so far, or the
threshold is so high that the next weight is less than the number. -/
lemma weight_le {bias j k w d : ℕ} (hbias : bias ≤ maxBias) (hk : k = base * (j + 1))
    (hweight : w ≤ 35 ^ j) (hd : threshold bias k ≤ d) (hvalue : w * d ≤ intMax) :
    w * (base - threshold bias k) ≤ intMax := by
  have hmax : intMax = 2147483647 := rfl
  have htmax : tmax = 26 := rfl
  have hbase : base = 36 := rfl
  have hbias' : bias ≤ 226 := hbias
  have hk' : k = 36 * (j + 1) := hk
  by_cases hfew : k < bias + tmax
  · have hj : j ≤ 5 := by omega
    have hpos := threshold_pos bias k
    calc w * (base - threshold bias k) ≤ 35 ^ 5 * 35 :=
          Nat.mul_le_mul (hweight.trans (Nat.pow_le_pow_right (by decide) hj)) (by omega)
      _ ≤ intMax := by decide
  · have ht : threshold bias k = 26 := by
      rw [threshold, if_neg (by omega), if_pos (by omega), htmax]
    rw [ht] at hd ⊢
    calc w * (base - 26) ≤ w * d := Nat.mul_le_mul_left w (by omega)
      _ ≤ intMax := hvalue

/-- The decoder reads the digits of a number and moves on by it, unless this is too far. -/
lemma decodeDelta_eq {bias : ℕ} (hbias : bias ≤ maxBias) {ds : List ℕ} (hlt : ∀ d ∈ ds, d < base)
    {j k w i : ℕ} (hk : k = base * (j + 1)) (hends : Digits.Ends (threshold bias) base k ds)
    (hw : 0 < w) (hweight : w ≤ 35 ^ j) (hi : i ≤ intMax)
    (hvalue : w * Digits.value base (threshold bias) base k ds ≤ intMax) (rest : List UInt8) :
    decodeDelta bias k w i (ds.map digitValue ++ rest) =
      if i + w * Digits.value base (threshold bias) base k ds ≤ intMax then
        some (i + w * Digits.value base (threshold bias) base k ds, rest)
      else none := by
  have hroom : ∀ {i w d : ℕ}, 0 < w → i ≤ intMax →
      (d > (intMax - i) / w ↔ ¬ i + w * d ≤ intMax) := by
    intro i w d hw hi
    rw [gt_iff_lt, Nat.div_lt_iff_lt_mul hw, Nat.mul_comm d w]
    omega
  induction hends generalizing j w i with
  | @last k d hd =>
      rw [List.forall_mem_singleton] at hlt
      rw [List.map_singleton, List.singleton_append, decodeDelta, digitIndex_digitValue hlt]
      have hval : Digits.value base (threshold bias) base k [d] = d := by
        simp [Digits.value]
      rw [hval]
      simp only [hroom hw hi, if_pos hd, ite_not, Nat.mul_comm d w]
  | @more k d ds hd hends ih =>
      rw [List.forall_mem_cons] at hlt
      have ht := threshold_lt bias k
      have hpos := threshold_pos bias k
      have hbase : base = 36 := rfl
      rw [List.map_cons, List.cons_append, decodeDelta, digitIndex_digitValue hlt.1]
      have hval : w * Digits.value base (threshold bias) base k (d :: ds) =
          w * d + w * (base - threshold bias k) *
            Digits.value base (threshold bias) base (k + base) ds := by
        rw [Digits.value, Nat.mul_add, Nat.mul_assoc]
      rw [hval] at hvalue ⊢
      have hguard : ¬ w > intMax / (base - threshold bias k) := by
        rw [gt_iff_lt, Nat.not_lt, Nat.le_div_iff_mul_le (by omega)]
        exact weight_le hbias hk hweight hd (by omega)
      simp only [hroom hw hi, if_neg (show ¬ d < threshold bias k by omega), if_neg hguard, ite_not,
        Nat.mul_comm d w]
      split
      · rename_i hfits
        have hweight' : w * (base - threshold bias k) ≤ 35 ^ (j + 1) := by
          rw [Nat.pow_succ]
          exact Nat.mul_le_mul hweight (by omega)
        rw [ih hlt.2 (j := j + 1) (by rw [hk]; rfl) (Nat.mul_pos hw (by omega)) hweight' hfits
          (by omega), Nat.add_assoc]
      · rw [if_neg (by omega)]

/-! ### Rounds of the decoder -/

lemma decodeDelta_length {bias k w i i' : ℕ} {input rest : List UInt8}
    (h : decodeDelta bias k w i input = some (i', rest)) : rest.length < input.length := by
  induction input generalizing k w i with
  | nil => cases h
  | cons codePoint input ih =>
      rw [decodeDelta] at h
      cases hdigit : digitIndex codePoint with
      | none => rw [hdigit] at h; cases h
      | some digit =>
          simp only [hdigit] at h
          split_ifs at h
          · obtain ⟨-, rfl⟩ := Prod.mk.inj (Option.some.inj h)
            exact Nat.lt_succ_self _
          · exact (ih h).trans (Nat.lt_succ_self _)

namespace Decoding

variable {d d' d'' : Decoding} {input rest w w' : List UInt8}

lemma round_length (h : d.round input = some (d', rest)) : rest.length < input.length := by
  obtain ⟨⟨i, rest'⟩, hdelta, h⟩ := Option.bind_eq_some_iff.1 h
  obtain ⟨d'', hinsert, h⟩ := Option.bind_eq_some_iff.1 h
  obtain ⟨-, rfl⟩ := Prod.mk.inj (Option.some.inj h)
  exact decodeDelta_length hdelta

/-- The loop on the whole of an input. -/
def run (d : Decoding) (input : List UInt8) : Option (List ℕ) := loop input.length d input

lemma loop_cons (bound : ℕ) (d : Decoding) (c : UInt8) (input : List UInt8) :
    loop (bound + 1) d (c :: input) =
      (d.round (c :: input)).bind fun r => loop bound r.1 r.2 := rfl

lemma loop_eq_run {bound : ℕ} (h : input.length ≤ bound) : loop bound d input = d.run input := by
  induction hlen : input.length using Nat.strong_induction_on generalizing input bound d with
  | _ len ih =>
      cases input with
      | nil =>
          subst hlen
          cases bound <;> rfl
      | cons c input =>
          obtain ⟨bound, rfl⟩ := Nat.exists_eq_succ_of_ne_zero (show bound ≠ 0 by
            rw [List.length_cons] at h
            omega)
          rw [run, List.length_cons, loop_cons, loop_cons]
          refine Option.bind_congr fun r hr => ?_
          have hlt : r.2.length < (c :: input).length := round_length hr
          rw [List.length_cons] at hlt h hlen
          rw [ih _ (by omega) (by omega) rfl, ih _ (by omega) (by omega) rfl]

lemma run_of_round (h : d.round input = some (d', rest)) : d.run input = d'.run rest := by
  have hlt := round_length h
  cases input with
  | nil => exact absurd hlt (by simp)
  | cons c input =>
      rw [List.length_cons] at hlt
      rw [run, List.length_cons, loop_cons, h]
      exact loop_eq_run (Nat.lt_succ_iff.1 hlt)

lemma run_of_round_none (hne : input ≠ []) (h : d.round input = none) : d.run input = none := by
  cases input with
  | nil => exact absurd rfl hne
  | cons c input => rw [run, List.length_cons, loop_cons, h, Option.bind_none]

/-- The decoder reads `w` and comes from `d` to `d'`.  It may give up on the way when `long`
holds. -/
def Reads (long : Prop) (d : Decoding) (w : List UInt8) (d' : Decoding) : Prop :=
  ∀ rest, d.run (w ++ rest) = d'.run rest ∨ d.run (w ++ rest) = none ∧ long

lemma Reads.nil (long : Prop) (d : Decoding) : d.Reads long [] d := fun _ => Or.inl rfl

lemma Reads.append {long : Prop} (h : d.Reads long w d') (h' : d'.Reads long w' d'') :
    d.Reads long (w ++ w') d'' := by
  intro rest
  rw [List.append_assoc]
  rcases h (w' ++ rest) with hrun | hnone
  · rw [hrun]
    exact h' rest
  · exact Or.inr hnone

end Decoding

/-! ### In step -/

/-- While the encoder looks for the code point `n`, with `pre` behind it and `post` in front of it:
the decoder has what is written so far, and it is `delta` steps behind. -/
structure Synced (n b : ℕ) (pre post : List ℕ) (e : Encoding) (d : Decoding) : Prop where
  out : d.out = pre.filter (· ≤ n) ++ post.filter (· < n)
  h : e.h = d.out.length
  bias : e.bias = d.bias
  behind : d.n * (e.h + 1) + d.i + e.delta = n * (e.h + 1) + (pre.filter (· ≤ n)).length
  first : d.i = 0 ↔ e.h = b
  b_le : b ≤ e.h
  i_le : d.i ≤ d.out.length
  n_le : d.n ≤ n
  bias_le : d.bias ≤ maxBias
  delta_le : e.delta ≤ intMax

variable {n b c : ℕ} {pre post : List ℕ} {e : Encoding} {d : Decoding}

/-- A larger code point is passed over. -/
lemma Synced.skip (hs : Synced n b pre (c :: post) e d) (hc : n < c) :
    Synced n b (pre ++ [c]) post e d := by
  have hpre : (pre ++ [c]).filter (· ≤ n) = pre.filter (· ≤ n) := by
    rw [List.filter_append, List.filter_cons_of_neg (by simpa using hc), List.filter_nil,
      List.append_nil]
  have hpost : (c :: post).filter (· < n) = post.filter (· < n) :=
    List.filter_cons_of_neg (by simpa using hc.le)
  exact { hs with
    out := by rw [hpre, ← hpost]; exact hs.out
    behind := by rw [hpre]; exact hs.behind }

/-- A smaller code point is one step. -/
lemma Synced.pass (hs : Synced n b pre (c :: post) e d) (hc : c < n) (hdelta : e.delta ≠ intMax) :
    Synced n b (pre ++ [c]) post { e with delta := e.delta + 1 } d := by
  have hpre : (pre ++ [c]).filter (· ≤ n) = pre.filter (· ≤ n) ++ [c] := by
    rw [List.filter_append, List.filter_cons_of_pos (by simpa using hc.le), List.filter_nil]
  have hpost : (c :: post).filter (· < n) = c :: post.filter (· < n) :=
    List.filter_cons_of_pos (by simpa using hc)
  have hle := hs.delta_le
  exact { hs with
    out := by rw [hpre, List.append_assoc, List.singleton_append, ← hpost]; exact hs.out
    behind := by
      have hbehind := hs.behind
      rw [hpre, List.length_append, List.length_singleton]
      show d.n * (e.h + 1) + d.i + (e.delta + 1) =
        n * (e.h + 1) + ((pre.filter (· ≤ n)).length + 1)
      omega
    delta_le := by
      show e.delta + 1 ≤ intMax
      omega }

lemma insertIdx_append {α : Type} (l l' : List α) (a : α) :
    (l ++ l').insertIdx l.length a = l ++ a :: l' := by
  induction l with
  | nil => rfl
  | cons b l ih => rw [List.cons_append, List.length_cons, List.insertIdx_succ_cons, ih,
      List.cons_append]

/-- The numbers of the encoder, as the decoder reads them. -/
lemma decodeDelta_encodeDelta {bias delta i : ℕ} (hbias : bias ≤ maxBias) (hdelta : delta ≤ intMax)
    (hi : i ≤ intMax) (rest : List UInt8) :
    decodeDelta bias base 1 i (encodeDelta bias delta base delta ++ rest) =
      if i + delta ≤ intMax then some (i + delta, rest) else none := by
  have hvalue : Digits.value base (threshold bias) base base
      (Digits.write base (threshold bias) base delta base delta) = delta :=
    Digits.value_write delta base delta
  have hread := decodeDelta_eq hbias (j := 0) (k := base) (i := i)
    (Digits.lt_of_mem_write (threshold_pos bias) (threshold_lt bias) le_rfl) rfl
    (Digits.ends_write (threshold_pos bias) le_rfl) Nat.one_pos le_rfl hi
    (by rw [hvalue, Nat.one_mul]; exact hdelta) rest
  rw [encodeDelta_eq, hread, hvalue, Nat.one_mul]

/-- Moved on to the position `pos` of the code point `n`, the decoder inserts it there. -/
lemma Decoding.insert_eq {i pos : ℕ} (hn : initialN ≤ n) (hn' : n ≤ 0x10FFFF) (hle : d.n ≤ n)
    (hpos : pos ≤ d.out.length)
    (hmoved : d.n * (d.out.length + 1) + i = n * (d.out.length + 1) + pos) :
    d.insert i = some ⟨n, pos + 1, adapt (i - d.i) (d.out.length + 1) (d.i == 0),
      d.out.insertIdx pos n⟩ := by
  obtain ⟨m, rfl⟩ := Nat.exists_eq_add_of_le hle
  have hi : i = pos + m * (d.out.length + 1) := by
    rw [Nat.add_mul] at hmoved
    omega
  have hdiv : i / (d.out.length + 1) = m := by
    rw [hi, Nat.add_mul_div_right _ _ (Nat.succ_pos _), Nat.div_eq_of_lt (by omega), Nat.zero_add]
  have hmod : i % (d.out.length + 1) = pos := by
    rw [hi, Nat.add_mul_mod_self_right, Nat.mod_eq_of_lt (by omega)]
  have hmax : intMax = 2147483647 := rfl
  have hfirst : initialN = 128 := rfl
  rw [Decoding.insert, hdiv, hmod, if_neg (by omega)]
  exact if_neg (by omega)

/-- What the encoder goes on with after it has written a code point. -/
def Encoding.written (e : Encoding) (b : ℕ) : Encoding where
  delta := 0
  bias := adapt e.delta (e.h + 1) (e.h == b)
  h := e.h + 1
  out := e.out ++ encodeDelta e.bias e.delta base e.delta

/-- What the decoder goes on with after it has inserted `n` behind `l`. -/
def Decoding.inserted (d : Decoding) (n b delta : ℕ) (l l' : List ℕ) : Decoding where
  n := n
  i := l.length + 1
  bias := adapt delta (d.out.length + 1) (d.out.length == b)
  out := l ++ n :: l'

/-- The code points that are behind `n`, and those before it. -/
lemma Synced.out_write (hs : Synced n b pre (n :: post) e d) :
    d.out = pre.filter (· ≤ n) ++ post.filter (· < n) := by
  have hpost : (n :: post).filter (· < n) = post.filter (· < n) :=
    List.filter_cons_of_neg (by simp)
  rw [hs.out, hpost]

/-- The decoder that has inserted `n` is where the encoder is that has written it. -/
lemma Synced.inserted (hs : Synced n b pre (n :: post) e d) :
    Synced n b (pre ++ [n]) post (e.written b)
      (d.inserted n b e.delta (pre.filter (· ≤ n)) (post.filter (· < n))) := by
  have hpre : (pre ++ [n]).filter (· ≤ n) = pre.filter (· ≤ n) ++ [n] := by
    rw [List.filter_append, List.filter_cons_of_pos (by simp), List.filter_nil]
  have hlen : d.out.length = (pre.filter (· ≤ n)).length + (post.filter (· < n)).length := by
    rw [hs.out_write, List.length_append]
  have hh := hs.h
  exact
    { out := by
        rw [hpre, List.append_assoc]
        rfl
      h := by
        show e.h + 1 = (pre.filter (· ≤ n) ++ n :: post.filter (· < n)).length
        rw [List.length_append, List.length_cons]
        omega
      bias := by
        show adapt e.delta (e.h + 1) (e.h == b) = _
        rw [hs.h]
        rfl
      behind := by
        rw [hpre, List.length_append]
        rfl
      first := by
        have hb := hs.b_le
        show (pre.filter (· ≤ n)).length + 1 = 0 ↔ e.h + 1 = b
        omega
      b_le := hs.b_le.trans (Nat.le_succ _)
      i_le := by
        show _ ≤ (pre.filter (· ≤ n) ++ n :: post.filter (· < n)).length
        rw [List.length_append, List.length_cons]
        exact Nat.add_le_add_left (Nat.le_add_left _ _) _
      n_le := le_rfl
      bias_le := adapt_le hs.delta_le _
      delta_le := Nat.zero_le _ }

/-- Moved on by what the encoder writes, the decoder inserts `n`. -/
lemma Synced.insert_eq (hs : Synced n b pre (n :: post) e d) (hn : initialN ≤ n)
    (hn' : n ≤ 0x10FFFF) : d.insert (d.i + e.delta) =
      some (d.inserted n b e.delta (pre.filter (· ≤ n)) (post.filter (· < n))) := by
  have hout := hs.out_write
  have hle : (pre.filter (· ≤ n)).length ≤ d.out.length := by
    rw [hout, List.length_append]
    exact Nat.le_add_right _ _
  have hfirst : (d.i == 0) = (d.out.length == b) := by
    rw [Bool.eq_iff_iff, beq_iff_eq, beq_iff_eq, hs.first, hs.h]
  have hmoved : d.n * (d.out.length + 1) + (d.i + e.delta) =
      n * (d.out.length + 1) + (pre.filter (· ≤ n)).length := by
    rw [← Nat.add_assoc, ← hs.h]
    exact hs.behind
  rw [Decoding.insert_eq hn hn' hs.n_le hle hmoved, Nat.add_sub_cancel_left, hfirst,
    Decoding.inserted, hout, insertIdx_append]

/-- The code point that is looked for is written, and the decoder inserts it where it belongs. -/
lemma Synced.write (hs : Synced n b pre (n :: post) e d) (hn : initialN ≤ n) (hn' : n ≤ 0x10FFFF)
    (hlength : (pre ++ n :: post).length ≤ intMax) :
    ∃ d', Synced n b (pre ++ [n]) post (e.written b) d' ∧ d'.n = n ∧
      ∀ rest, d.round (encodeDelta e.bias e.delta base e.delta ++ rest) =
        if d.i + e.delta ≤ intMax then some (d', rest) else none := by
  have hi : d.i ≤ intMax := by
    have hle := hs.i_le
    have hpre_le := List.length_filter_le (· ≤ n) pre
    rw [List.length_append, List.length_cons] at hlength
    have hpost_le := List.length_filter_le (· < n) post
    rw [hs.out_write, List.length_append] at hle
    omega
  refine ⟨_, hs.inserted, rfl, fun rest => ?_⟩
  rw [Decoding.round, hs.bias, decodeDelta_encodeDelta hs.bias_le hs.delta_le hi]
  split
  · rw [Option.bind_eq_bind, Option.bind_some, hs.insert_eq hn hn']
    rfl
  · rfl

lemma Synced.h_le (hs : Synced n b pre post e d) : e.h ≤ (pre ++ post).length := by
  rw [hs.h, hs.out, List.length_append, List.length_append]
  exact Nat.add_le_add (List.length_filter_le _ _) (List.length_filter_le _ _)

/-- How far a short input can move the decoder on. -/
lemma Synced.moved_le (hs : Synced n b pre post e d) (hn : n ≤ 0x10FFFF) :
    d.i + e.delta ≤ 0x110000 * ((pre ++ post).length + 1) := by
  have hbehind := hs.behind
  have hle := hs.h_le
  have hpos : (pre.filter (· ≤ n)).length ≤ e.h := by
    rw [hs.h, hs.out, List.length_append]
    exact Nat.le_add_right _ _
  have hmul : n * (e.h + 1) ≤ 0x10FFFF * ((pre ++ post).length + 1) :=
    Nat.mul_le_mul hn (Nat.succ_le_succ hle)
  omega

/-- The input is so long that integers may overflow. -/
def Long (input : List ℕ) : Prop := 1927 ≤ input.length

lemma Synced.fits (hs : Synced n b pre post e d) (hn : n ≤ 0x10FFFF)
    (hshort : ¬ Long (pre ++ post)) : d.i + e.delta ≤ intMax := by
  have hle := hs.moved_le hn
  have hmax : intMax = 2147483647 := rfl
  rw [Long] at hshort
  omega

lemma encodeDelta_ne_nil (bias bound k q : ℕ) : encodeDelta bias bound k q ≠ [] := by
  cases bound with
  | zero => exact List.cons_ne_nil _ _
  | succ bound =>
      rw [encodeDelta]
      split <;> exact List.cons_ne_nil _ _

lemma digitIndex_of_mem_encodeDelta (bias delta : ℕ) :
    ∀ c ∈ encodeDelta bias delta base delta, (digitIndex c).isSome := by
  rw [encodeDelta_eq, List.forall_mem_map]
  intro digit hdigit
  rw [digitIndex_digitValue (Digits.lt_of_mem_write (threshold_pos bias) (threshold_lt bias) le_rfl
    digit hdigit)]
  rfl

/-- Only digits are written, also where the encoder gives up. -/
lemma Encoding.scan_out (n b : ℕ) (cs : List ℕ) (e : Encoding) :
    ∃ w, (Encoding.scan n b cs e).2.out = e.out ++ w ∧ ∀ c ∈ w, (digitIndex c).isSome := by
  induction cs generalizing e with
  | nil => exact ⟨[], (List.append_nil _).symm, by simp⟩
  | cons c cs ih =>
      rw [Encoding.scan]
      split_ifs with hlt hdelta heq
      · exact ⟨[], (List.append_nil _).symm, by simp⟩
      · exact ih _
      · obtain ⟨w, hout, hw⟩ := ih (e.written b)
        refine ⟨encodeDelta e.bias e.delta base e.delta ++ w, ?_,
          List.forall_mem_append.2 ⟨digitIndex_of_mem_encodeDelta _ _, hw⟩⟩
        refine hout.trans ?_
        rw [Encoding.written, List.append_assoc]
      · exact ih e

lemma Encoding.loop_out (input : List ℕ) (b bound n : ℕ) (e : Encoding) :
    ∃ w, (Encoding.loop input b bound n e).2 = e.out ++ w ∧ ∀ c ∈ w, (digitIndex c).isSome := by
  induction bound generalizing n e with
  | zero => exact ⟨[], (List.append_nil _).symm, by simp⟩
  | succ bound ih =>
      rw [Encoding.loop]
      dsimp only
      obtain ⟨w, hout, hw⟩ := Encoding.scan_out (minFrom n input) b input
        { e with delta := e.delta + (minFrom n input - n) * (e.h + 1) }
      split_ifs
      · exact ⟨[], (List.append_nil _).symm, by simp⟩
      · obtain ⟨w', hout', hw'⟩ := ih (minFrom n input + 1) _
        refine ⟨w ++ w', ?_, List.forall_mem_append.2 ⟨hw, hw'⟩⟩
        rw [hout', ← List.append_assoc, ← hout]
      · exact ⟨w, hout, hw⟩
      · exact ⟨[], (List.append_nil _).symm, by simp⟩

/-- All code points `n` are written, and the decoder reads what is written. -/
lemma Synced.scan (hs : Synced n b pre post e d) (hn : initialN ≤ n) (hn' : n ≤ 0x10FFFF)
    (hlength : (pre ++ post).length ≤ intMax) (hscan : (Encoding.scan n b post e).1 = true) :
    ∃ w d', (Encoding.scan n b post e).2.out = e.out ++ w ∧
      Synced n b (pre ++ post) [] (Encoding.scan n b post e).2 d' ∧
      (n ∈ post ∨ d.n = n → d'.n = n) ∧ d.Reads (Long (pre ++ post)) w d' := by
  induction post generalizing pre e d with
  | nil =>
      refine ⟨[], d, (List.append_nil _).symm, ?_, by simp, .nil _ d⟩
      rwa [List.append_nil]
  | cons c post ih =>
      have happend : pre ++ c :: post = (pre ++ [c]) ++ post := by simp
      rw [Encoding.scan] at hscan ⊢
      rw [happend] at hlength ⊢
      split_ifs at hscan ⊢ with hlt hdelta heq
      · obtain ⟨w, d', hout, hs', hd', hreads⟩ := ih (hs.pass hlt hdelta) hlength hscan
        refine ⟨w, d', hout, hs', fun h => hd' (h.imp_left fun hmem => ?_), hreads⟩
        exact (List.mem_cons.1 hmem).resolve_left (by omega)
      · subst heq
        obtain ⟨d₁, hs₁, hd₁, hround⟩ := hs.write hn hn' (by rwa [happend])
        obtain ⟨w, d', hout, hs', hd', hreads⟩ := ih hs₁ hlength hscan
        refine ⟨encodeDelta e.bias e.delta base e.delta ++ w, d', ?_, hs',
          fun _ => hd' (Or.inr hd₁), Decoding.Reads.append (fun rest => ?_) hreads⟩
        · refine hout.trans ?_
          rw [Encoding.written, List.append_assoc]
        · have hround := hround rest
          split at hround
          · exact Or.inl (Decoding.run_of_round hround)
          · rename_i hfar
            refine Or.inr ⟨Decoding.run_of_round_none ?_ hround, ?_⟩
            · exact List.append_ne_nil_of_left_ne_nil (encodeDelta_ne_nil _ _ _ _) rest
            · by_contra hshort
              exact hfar (hs.fits hn' (by rwa [happend]))
      · obtain ⟨w, d', hout, hs', hd', hreads⟩ := ih (hs.skip (by omega)) hlength hscan
        refine ⟨w, d', hout, hs', fun h => hd' (h.imp_left fun hmem => ?_), hreads⟩
        exact (List.mem_cons.1 hmem).resolve_left fun h => heq h.symm

/-! ### All code points -/

lemma minFrom_spec {input : List ℕ} {c : ℕ} (hc : c ∈ input) (hn : n ≤ c) (hc' : c ≤ 0x10FFFF) :
    minFrom n input ∈ input ∧ n ≤ minFrom n input ∧
      ∀ c ∈ input, n ≤ c → minFrom n input ≤ c := by
  have hfold : ∀ (l : List ℕ) (m r : ℕ),
      l.foldl (fun m codePoint => if codePoint ≥ n ∧ codePoint < m then codePoint else m) m = r →
        (r = m ∨ r ∈ l ∧ n ≤ r) ∧ r ≤ m ∧ ∀ c ∈ l, n ≤ c → r ≤ c := by
    intro l
    induction l with
    | nil =>
        rintro m r rfl
        exact ⟨Or.inl rfl, le_rfl, fun c hc => absurd hc List.not_mem_nil⟩
    | cons a l ih =>
        intro m r hfold
        obtain ⟨hr, hle, hall⟩ := ih _ r hfold
        beta_reduce at hr hle
        rw [List.forall_mem_cons]
        split_ifs at hr hle with ha
        · refine ⟨Or.inr ?_, by omega, fun _ => hle, hall⟩
          rcases hr with rfl | hr
          · exact ⟨List.mem_cons_self, ha.1⟩
          · exact ⟨List.mem_cons_of_mem a hr.1, hr.2⟩
        · refine ⟨hr.imp_right fun hr => ⟨List.mem_cons_of_mem a hr.1, hr.2⟩, hle, fun hna => ?_,
            hall⟩
          omega
  obtain ⟨hr, -, hall⟩ := hfold input 0x10FFFF _ rfl
  have hle : minFrom n input ≤ c := hall c hc hn
  rcases hr with hr | hr
  · -- the value that the search starts with is in the input itself
    have hr' : minFrom n input = 0x10FFFF := hr
    obtain rfl : minFrom n input = c := by omega
    exact ⟨hc, hn, hall⟩
  · exact ⟨hr.1, hr.2, hall⟩

variable {input : List ℕ} {m : ℕ}

/-- Where nothing is left below `m`, the encoder may go on with `m`. -/
lemma Synced.advance (hs : Synced n b [] input e d) (hnm : n ≤ m)
    (hm : ∀ c ∈ input, n ≤ c → m ≤ c) (hdelta : e.delta + (m - n) * (e.h + 1) ≤ intMax) :
    Synced m b [] input { e with delta := e.delta + (m - n) * (e.h + 1) } d := by
  have hfilter : input.filter (· < m) = input.filter (· < n) := by
    refine List.filter_congr fun c hc => ?_
    have hmc := hm c hc
    rw [decide_eq_decide]
    omega
  exact { hs with
    out := by
      rw [hfilter]
      exact hs.out
    behind := by
      obtain ⟨k, rfl⟩ := Nat.exists_eq_add_of_le hnm
      have hbehind : d.n * (e.h + 1) + d.i + e.delta = n * (e.h + 1) + 0 := hs.behind
      rw [Nat.add_sub_cancel_left]
      show d.n * (e.h + 1) + d.i + (e.delta + k * (e.h + 1)) = (n + k) * (e.h + 1) + 0
      rw [Nat.add_mul]
      omega
    n_le := hs.n_le.trans hnm
    delta_le := hdelta }

/-- At the end of the input, the encoder goes on with the next code point. -/
lemma Synced.next (hs : Synced n b input [] e d) (hd : d.n = n) (hlength : input.length < intMax) :
    Synced (n + 1) b [] input { e with delta := e.delta + 1 } d := by
  have hout := hs.out
  have hbehind := hs.behind
  have hle := hs.h_le
  have hh := hs.h
  rw [List.filter_nil, List.append_nil] at hout
  have hlen : (input.filter (· ≤ n)).length = e.h := by rw [hh, hout]
  rw [List.append_nil] at hle
  rw [hd, hlen] at hbehind
  exact { hs with
    out := by
      rw [hout, List.filter_nil, List.nil_append]
      exact List.filter_congr fun c _ => decide_eq_decide.2 Nat.lt_succ_iff.symm
    behind := by
      rw [hd]
      show n * (e.h + 1) + d.i + (e.delta + 1) = (n + 1) * (e.h + 1) + 0
      rw [Nat.add_mul, Nat.one_mul]
      omega
    n_le := hs.n_le.trans (Nat.le_succ n)
    delta_le := by
      show e.delta + 1 ≤ intMax
      omega }

/-- When not all code points are written, one of those left is large enough. -/
lemma Synced.exists_left (hs : Synced n b [] input e d) (hh : e.h < input.length) :
    ∃ c ∈ input, n ≤ c := by
  by_contra hnone
  simp only [not_exists, not_and, Nat.not_le] at hnone
  have hout := hs.out
  rw [List.filter_nil, List.nil_append,
    List.filter_eq_self.2 fun c hc => decide_eq_true (hnone c hc)] at hout
  rw [hs.h, hout] at hh
  exact absurd hh (lt_irrefl _)

/-- When all code points are written, the decoder has all of them. -/
lemma Synced.run_nil (hs : Synced n b [] input e d) (hh : ¬ e.h < input.length) :
    d.run [] = some input := by
  have hout := hs.out
  rw [List.filter_nil, List.nil_append] at hout
  have hall : input.filter (· < n) = input := by
    refine List.filter_sublist.eq_of_length_le ?_
    rw [← hout, ← hs.h]
    omega
  show some d.out = some input
  rw [hout, hall]

/-- What the encoder writes from some point on is read by the decoder, which has all of the input in
the end. -/
lemma Synced.loop {bound : ℕ} (hs : Synced n b [] input e d) (hn : initialN ≤ n)
    (hvalid : ∀ c ∈ input, c ≤ 0x10FFFF) (hlength : input.length < intMax)
    (hloop : (Encoding.loop input b bound n e).1 = true) :
    ∃ w, (Encoding.loop input b bound n e).2 = e.out ++ w ∧
      (d.run w = some input ∨ d.run w = none ∧ Long input) := by
  induction bound generalizing n e d with
  | zero =>
      have hh : ¬ e.h < input.length := by simpa [Encoding.loop] using hloop
      exact ⟨[], (List.append_nil _).symm, Or.inl (hs.run_nil hh)⟩
  | succ bound ih =>
      rw [Encoding.loop] at hloop ⊢
      split_ifs at hloop ⊢ with hh
      · -- something is left from `n` on, and the smallest of it is written in this pass
        obtain ⟨c, hc, hnc⟩ := hs.exists_left hh
        obtain ⟨hmem, hnm, hmin⟩ := minFrom_spec hc hnc (hvalid c hc)
        generalize minFrom n input = m at hmem hnm hmin hloop ⊢
        dsimp only at hloop ⊢
        split_ifs at hloop ⊢ with hguard hscan
        rw [gt_iff_lt, Nat.not_lt, Nat.le_div_iff_mul_le (show 0 < e.h + 1 by omega)] at hguard
        have hdelta := hs.delta_le
        have hs₁ := hs.advance hnm hmin (by omega)
        obtain ⟨w, d₁, hout₁, hs₂, hd₁, hreads⟩ :=
          hs₁.scan (hn.trans hnm) (hvalid m hmem) hlength.le hscan
        have hs₃ := hs₂.next (hd₁ (Or.inl hmem)) hlength
        obtain ⟨w', hout₂, hrun⟩ := ih hs₃ (hn.trans (hnm.trans (Nat.le_succ m))) hloop
        refine ⟨w ++ w', ?_, ?_⟩
        · refine hout₂.trans ?_
          rw [← List.append_assoc]
          exact congrArg (· ++ w') hout₁
        · rcases hreads w' with hread | hnone
          · rw [hread]
            exact hrun
          · exact Or.inr hnone
      · exact ⟨[], (List.append_nil _).symm, Or.inl (hs.run_nil hh)⟩

/-! ### Whole strings -/

lemma splitLast_of_notMem {a : UInt8} {w : List UInt8} (h : a ∉ w) : splitLast a w = none := by
  induction w with
  | nil => rfl
  | cons d w ih =>
      rw [List.mem_cons, not_or] at h
      rw [splitLast, ih h.2]
      exact if_neg (Ne.symm h.1)

lemma splitLast_append {a : UInt8} {w' : List UInt8} (h : a ∉ w') (w : List UInt8) :
    splitLast a (w ++ a :: w') = some (w, w') := by
  induction w with
  | nil =>
      rw [List.nil_append, splitLast, splitLast_of_notMem h]
      exact if_pos rfl
  | cons d w ih => rw [List.cons_append, splitLast, ih]

/-- The basic code points of an input. -/
def basics (input : List ℕ) : List ℕ := input.filter (· < 0x80)

lemma synced_initial (input : List ℕ) (out : List UInt8) :
    Synced initialN (basics input).length [] input ⟨0, initialBias, (basics input).length, out⟩
      ⟨initialN, 0, initialBias, basics input⟩ where
  out := rfl
  h := rfl
  bias := rfl
  behind := rfl
  first := iff_of_true rfl rfl
  b_le := le_rfl
  i_le := Nat.zero_le _
  n_le := le_rfl
  bias_le := show 72 ≤ 226 by decide
  delta_le := Nat.zero_le _

/-- What the encoder writes first: the basic code points, and a delimiter behind them if there are
any. -/
def basicText (input : List ℕ) : List UInt8 :=
  (basics input).map UInt8.ofNat ++ if (basics input).length > 0 then [delimiter] else []

lemma valid_of_encode {input : List ℕ} (h : (encode input).1 = true) :
    ∀ c ∈ input, isValidUnicodeScalar c = true := by
  rw [encode] at h
  split_ifs at h with hvalid
  exact List.all_eq_true.1 hvalid

lemma encode_of_valid {input : List ℕ} (h : ∀ c ∈ input, isValidUnicodeScalar c = true) :
    encode input = Encoding.loop input (basics input).length input.length initialN
      ⟨0, initialBias, (basics input).length, basicText input⟩ :=
  if_pos (List.all_eq_true.2 h)

lemma encodePunycode_eq_some {input : List ℕ} {out : List UInt8} :
    encodePunycode input = some out ↔ (encode input).1 = true ∧ (encode input).2 = out := by
  rw [encodePunycode]
  split_ifs with h <;> simp [h]

/-- Behind the basic code points, only digits are written. -/
lemma encode_out {input : List ℕ} (h : ∀ c ∈ input, isValidUnicodeScalar c = true) :
    ∃ w, (encode input).2 = basicText input ++ w ∧ ∀ c ∈ w, (digitIndex c).isSome := by
  rw [encode_of_valid h]
  exact Encoding.loop_out input _ _ _ _

lemma lt_of_mem_basics {input : List ℕ} {c : ℕ} (h : c ∈ basics input) : c < initialN :=
  of_decide_eq_true (List.mem_filter.1 h).2

/-- The basic code points are bytes of their own. -/
lemma map_toNat_basics (input : List ℕ) :
    ((basics input).map UInt8.ofNat).map UInt8.toNat = basics input := by
  rw [List.map_map]
  refine List.map_congr_left (g := id) (fun c hc => ?_) |>.trans (List.map_id _)
  have hlt : c < 0x80 := lt_of_mem_basics hc
  show (UInt8.ofNat c).toNat = c
  rw [UInt8.toNat_ofNat']
  omega

lemma any_basics (input : List ℕ) :
    ((basics input).map UInt8.ofNat).any (· > 0x7f) = false := by
  rw [List.any_eq_false, List.forall_mem_map]
  intro c hc
  have hlt : c < 0x80 := lt_of_mem_basics hc
  rw [decide_eq_true_eq, gt_iff_lt, UInt8.lt_iff_toNat_lt, UInt8.toNat_ofNat']
  show ¬ 127 < c % 2 ^ 8
  omega

lemma delimiter_notMem {w : List UInt8} (hw : ∀ c ∈ w, (digitIndex c).isSome) :
    delimiter ∉ w := fun hmem => absurd (hw _ hmem) (by decide)

lemma le_of_isValidUnicodeScalar {c : ℕ} (h : isValidUnicodeScalar c = true) : c ≤ 0x10FFFF := by
  simp only [isValidUnicodeScalar, Bool.or_eq_true, Bool.and_eq_true, decide_eq_true_eq] at h
  omega

/-- The encoder writes a delimiter behind the basic code points if there are any, and no other. -/
lemma splitLast_written (input : List ℕ) {w : List UInt8} (hw : ∀ c ∈ w, (digitIndex c).isSome) :
    splitLast delimiter (basicText input ++ w) =
      if (basics input).length > 0 then some ((basics input).map UInt8.ofNat, w) else none := by
  have hnot := delimiter_notMem hw
  rw [basicText]
  split
  · rw [List.append_assoc, List.singleton_append, splitLast_append hnot]
  · rename_i hbasics
    have hnil : basics input = [] := List.eq_nil_of_length_eq_zero (by omega)
    rw [hnil, List.map_nil, List.append_nil, List.nil_append, splitLast_of_notMem hnot]

/-- The decoder starts with the basic code points, and goes on behind the delimiter. -/
lemma decodePunycode_written (input : List ℕ) {w : List UInt8}
    (hw : ∀ c ∈ w, (digitIndex c).isSome) :
    decodePunycode (basicText input ++ w) =
      (⟨initialN, 0, initialBias, basics input⟩ : Decoding).run w := by
  have hparts : (splitLast delimiter (basicText input ++ w)).getD ([], basicText input ++ w) =
      ((basics input).map UInt8.ofNat, w) := by
    rw [splitLast_written input hw]
    split
    · rfl
    · rename_i hbasics
      have hnil : basics input = [] := List.eq_nil_of_length_eq_zero (by omega)
      rw [basicText, hnil]
      rfl
  rw [decodePunycode, hparts]
  simp only [any_basics, map_toNat_basics]
  rfl

/-- What the encoder writes behind the basic code points is read by the decoder. -/
lemma exists_written {input : List ℕ} {out : List UInt8} (hlength : input.length < intMax)
    (hencode : encodePunycode input = some out) :
    ∃ w, out = basicText input ++ w ∧ (∀ c ∈ w, (digitIndex c).isSome) ∧
      ((⟨initialN, 0, initialBias, basics input⟩ : Decoding).run w = some input ∨
        (⟨initialN, 0, initialBias, basics input⟩ : Decoding).run w = none ∧ Long input) := by
  obtain ⟨hloop, rfl⟩ := encodePunycode_eq_some.1 hencode
  have hvalid := valid_of_encode hloop
  obtain ⟨w, hout, hw⟩ := encode_out hvalid
  have hle : ∀ c ∈ input, c ≤ 0x10FFFF := fun c hc => le_of_isValidUnicodeScalar (hvalid c hc)
  rw [encode_of_valid hvalid] at hloop hout ⊢
  obtain ⟨w', hout', hrun⟩ := (synced_initial input _).loop le_rfl hle hlength hloop
  obtain rfl := List.append_cancel_left (hout.symm.trans hout')
  exact ⟨w, hout, hw, hrun⟩

/-- **What is encoded is decoded**, whatever the code points are.  Only when there are `1927` of
them or more, the decoder may give up. -/
theorem decode_encode {input : List ℕ} {out : List UInt8} (hlength : input.length < intMax)
    (hencode : encodePunycode input = some out) :
    decodePunycode out = some input ∨ decodePunycode out = none ∧ 1927 ≤ input.length := by
  obtain ⟨w, rfl, hw, hrun⟩ := exists_written hlength hencode
  rw [decodePunycode_written input hw]
  exact hrun

theorem decode_encode_umlaut :
    [98, 252, 99, 104, 101, 114].length < intMax ∧
      encodePunycode [98, 252, 99, 104, 101, 114] = some [98, 99, 104, 101, 114, 95, 107, 118, 97] ∧
      (decodePunycode [98, 99, 104, 101, 114, 95, 107, 118, 97] =
          some [98, 252, 99, 104, 101, 114] ∨
        decodePunycode [98, 99, 104, 101, 114, 95, 107, 118, 97] = none ∧
          1927 ≤ [98, 252, 99, 104, 101, 114].length) :=
  ⟨by decide, by decide, decode_encode (by decide) (by decide)⟩

/-! ### Short inputs -/

lemma decodePunycode_of_short {input : List ℕ} {out : List UInt8} (hlength : input.length < 1927)
    (hencode : encodePunycode input = some out) : decodePunycode out = some input := by
  have hmax : intMax = 2147483647 := rfl
  obtain ⟨w, rfl, hw, hrun⟩ := exists_written (by omega) hencode
  rw [decodePunycode_written input hw]
  exact hrun.resolve_right fun h => absurd h.2 (not_le.2 hlength)

/-- On a short input, no integer of the encoder overflows. -/
lemma Synced.scan_fst (hs : Synced n b pre post e d) (hn : initialN ≤ n) (hn' : n ≤ 0x10FFFF)
    (hshort : ¬ Long (pre ++ post)) : (Encoding.scan n b post e).1 = true := by
  have hmax : intMax = 2147483647 := rfl
  induction post generalizing pre e d with
  | nil => rfl
  | cons c post ih =>
      have hmoved := hs.moved_le hn'
      have happend : pre ++ c :: post = (pre ++ [c]) ++ post := by simp
      have hlength : (pre ++ c :: post).length < 1927 := not_le.1 hshort
      rw [happend] at hshort
      rw [Encoding.scan]
      split_ifs with hlt hdelta heq
      · omega
      · exact ih (hs.pass hlt hdelta) hshort
      · subst heq
        obtain ⟨d', hs', -, -⟩ := hs.write hn hn' (by omega)
        exact ih hs' hshort
      · exact ih (hs.skip (by omega)) hshort

/-- On a short input, the encoder can look for any code point next. -/
lemma Synced.delta_le_short {m : ℕ} (hs : Synced n b [] input e d) (hnm : n ≤ m)
    (hm : m ≤ 0x10FFFF) (hshort : ¬ Long input) : e.delta + (m - n) * (e.h + 1) ≤ intMax := by
  have hmax : intMax = 2147483647 := rfl
  have hlength : input.length < 1927 := not_le.1 hshort
  have hle := hs.h_le
  have hbehind : d.n * (e.h + 1) + d.i + e.delta = n * (e.h + 1) + 0 := hs.behind
  obtain ⟨k, rfl⟩ := Nat.exists_eq_add_of_le hnm
  rw [List.nil_append] at hle
  have hmul : (n + k) * (e.h + 1) ≤ 0x10FFFF * 1927 := Nat.mul_le_mul hm (by omega)
  rw [Nat.add_mul] at hmul
  rw [Nat.add_sub_cancel_left]
  omega

/-- A pass on the input writes the code point that was looked for. -/
lemma Synced.h_lt {m : ℕ} {e' : Encoding} {d' : Decoding} (hs : Synced n b [] input e d)
    (hs' : Synced m b input [] e' d') (hmem : m ∈ input) (hnm : n ≤ m) : e.h < e'.h := by
  have hfilter : input.filter (· < n) = (input.filter (· ≤ m)).filter (· < n) := by
    rw [List.filter_filter]
    refine List.filter_congr fun c _ => ?_
    rw [← Bool.decide_and, decide_eq_decide]
    omega
  rw [hs.h, hs'.h, hs.out, hs'.out]
  simp only [List.filter_nil, List.nil_append, List.append_nil]
  rw [hfilter, List.length_filter_lt_length_iff_exists]
  exact ⟨m, List.mem_filter.2 ⟨hmem, by simp⟩, by simpa using hnm⟩

lemma Synced.loop_fst {bound : ℕ} (hs : Synced n b [] input e d) (hn : initialN ≤ n)
    (hvalid : ∀ c ∈ input, c ≤ 0x10FFFF) (hbound : input.length ≤ e.h + bound)
    (hshort : ¬ Long input) : (Encoding.loop input b bound n e).1 = true := by
  have hmax : intMax = 2147483647 := rfl
  have hlength : input.length < 1927 := not_le.1 hshort
  induction bound generalizing n e d with
  | zero =>
      have hh : ¬ e.h < input.length := by omega
      simp [Encoding.loop, hh]
  | succ bound ih =>
      rw [Encoding.loop]
      split_ifs with hh
      · obtain ⟨c, hc, hnc⟩ := hs.exists_left hh
        obtain ⟨hmem, hnm, hmin⟩ := minFrom_spec hc hnc (hvalid c hc)
        dsimp only
        generalize minFrom n input = m at hmem hnm hmin
        have hm := hvalid m hmem
        have hdelta := hs.delta_le_short hnm hm hshort
        have hguard : ¬ m - n > (intMax - e.delta) / (e.h + 1) := by
          rw [gt_iff_lt, Nat.not_lt, Nat.le_div_iff_mul_le (show 0 < e.h + 1 by omega)]
          omega
        have hs₁ := hs.advance hnm hmin hdelta
        have hscan := hs₁.scan_fst (hn.trans hnm) hm (by rwa [List.nil_append])
        obtain ⟨w, d₁, -, hs₂, hd₁, -⟩ := hs₁.scan (hn.trans hnm) hm
          (by rw [List.nil_append]; omega) hscan
        rw [List.nil_append] at hs₂
        have hs₃ := hs₂.next (hd₁ (Or.inl hmem)) (by omega)
        rw [if_neg hguard, if_pos hscan]
        refine ih hs₃ (hn.trans (hnm.trans (Nat.le_succ m))) ?_
        have hmore := hs.h_lt hs₂ hmem hnm
        dsimp only
        omega
      · rfl

lemma encode_fst {input : List ℕ} (hlength : input.length < 1927)
    (hvalid : ∀ c ∈ input, isValidUnicodeScalar c = true) : (encode input).1 = true := by
  have hle : ∀ c ∈ input, c ≤ 0x10FFFF := fun c hc => le_of_isValidUnicodeScalar (hvalid c hc)
  rw [encode_of_valid hvalid]
  exact (synced_initial input _).loop_fst le_rfl hle (Nat.le_add_left _ _) (not_le.2 hlength)

lemma encodePunycode_isSome {input : List ℕ} (hlength : input.length < 1927)
    (hvalid : ∀ c ∈ input, isValidUnicodeScalar c = true) : (encodePunycode input).isSome :=
  Option.isSome_iff_exists.2 ⟨_, encodePunycode_eq_some.2 ⟨encode_fst hlength hvalid, rfl⟩⟩

/-- **Fewer than `1927` code points are encoded if they are valid.** -/
theorem encode_isSome_iff {input : List ℕ} (hlength : input.length < 1927) :
    (encodePunycode input).isSome ↔ ∀ c ∈ input, isValidUnicodeScalar c = true := by
  refine ⟨fun h => ?_, encodePunycode_isSome hlength⟩
  obtain ⟨out, hout⟩ := Option.isSome_iff_exists.1 h
  exact valid_of_encode (encodePunycode_eq_some.1 hout).1

theorem encode_isSome_iff_surrogate :
    [98, 252, 0xDC00].length < 1927 ∧ ((encodePunycode [98, 252, 0xDC00]).isSome ↔
      ∀ c ∈ [98, 252, 0xDC00], isValidUnicodeScalar c = true) :=
  ⟨by decide, encode_isSome_iff (by decide)⟩

end Punycode

end ICDump
