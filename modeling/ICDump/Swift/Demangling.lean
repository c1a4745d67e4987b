/-
Identifiers are demangled to what they were (`Demangler.cpp`).

The demangler reads an identifier as its plan says, and learns the words that the mangler has
learned (`identifierFrom_written`).  So both have the same words before the next identifier
(`Agree`), and this goes on for all identifiers of a name.
-/
import ICDump.Swift.Mangling

namespace ICDump

open Punycode Mangle

namespace Demangler

/-! ### Numbers -/

lemma toNat_byte {c : Char} (h : c.toNat < 256) : (byte c).toNat = c.toNat := by
  rw [byte, UInt8.toNat_ofNat']
  exact Nat.mod_eq_of_lt h

lemma isDigit_byte {c : Char} (h : c.isDigit = true) :
    Mangle.isDigit (byte c) = true ∧ (byte c).toNat = c.toNat := by
  obtain ⟨hlo, hhi⟩ : '0'.toNat ≤ c.toNat ∧ c.toNat ≤ '9'.toNat := by
    rw [Char.isDigit, Bool.and_eq_true, decide_eq_true_eq, decide_eq_true_eq] at h
    exact h
  have hlt : c.toNat < 256 := hhi.trans_lt (by decide)
  have hnat := toNat_byte hlt
  refine ⟨?_, hnat⟩
  rw [Mangle.isDigit, Bool.and_eq_true, decide_eq_true_eq, decide_eq_true_eq, UInt8.le_iff_toNat_le,
    UInt8.le_iff_toNat_le, hnat]
  exact ⟨hlo, hhi⟩

lemma le_ofDigitChars (l : List Char) (num : ℕ) : num ≤ Nat.ofDigitChars 10 l num := by
  rw [Nat.ofDigitChars_eq_ofDigitChars_zero]
  have hpos := Nat.pow_pos (n := l.length) (show 0 < 10 by decide)
  have hmul := Nat.le_mul_of_pos_left num hpos
  omega

lemma naturalFrom_digits {ds : List Char} (hds : ∀ c ∈ ds, c.isDigit = true) {num : ℕ}
    (hle : Nat.ofDigitChars 10 ds num ≤ intMax) {rest : List UInt8}
    (hrest : Mangle.isDigit (rest.headD 0) = false) :
    naturalFrom num (ds.map byte ++ rest) = some (Nat.ofDigitChars 10 ds num, rest) := by
  induction ds generalizing num with
  | nil =>
      cases rest with
      | nil => rfl
      | cons c rest =>
          have hc : ¬ Mangle.isDigit c = true := by
            rw [show Mangle.isDigit c = false from hrest]
            decide
          rw [List.map_nil, List.nil_append, naturalFrom, if_neg hc]
          rfl
  | cons c ds ih =>
      obtain ⟨hc, hds'⟩ := List.forall_mem_cons.1 hds
      obtain ⟨hdigit, hnat⟩ := isDigit_byte hc
      rw [Nat.ofDigitChars_cons] at hle ⊢
      have hnum := (le_ofDigitChars ds (10 * num + (c.toNat - '0'.toNat))).trans hle
      have hwrap : (10 * num + (c.toNat - '0'.toNat)) % 2 ^ 32 =
          10 * num + (c.toNat - '0'.toNat) :=
        Nat.mod_eq_of_lt (hnum.trans_lt (by decide))
      rw [List.map_cons, List.cons_append, naturalFrom, if_pos hdigit, hnat]
      dsimp only
      rw [hwrap, if_neg (not_or.2 ⟨Nat.not_lt.2 hnum, by omega⟩), ih hds' hle]

/-- A number starts with a digit, and with a zero only if it is zero. -/
lemma decimal_eq_cons (n : ℕ) : ∃ c cs, decimal n = c :: cs ∧ Mangle.isDigit c = true ∧
    (n ≠ 0 → c ≠ byte '0') := by
  induction n using Nat.strongRecOn with
  | ind n ih =>
      rw [decimal]
      by_cases hlt : n < 10
      · have hall : ∀ n < 10, Mangle.isDigit (byte n.digitChar) = true ∧
          (n ≠ 0 → byte n.digitChar ≠ byte '0') := by decide
        obtain ⟨hdigit, hne⟩ := hall n hlt
        rw [Nat.toDigits_of_lt_base hlt]
        exact ⟨_, _, rfl, hdigit, hne⟩
      · obtain ⟨c, cs, hcs, hdigit, hne⟩ := ih (n / 10) (by omega)
        rw [decimal] at hcs
        rw [Nat.toDigits_of_base_le (by decide) (by omega), List.map_append, hcs]
        exact ⟨_, _, rfl, hdigit, fun _ => hne (by omega)⟩

/-- A number is read up to its end. -/
lemma demangleNatural_decimal {n : ℕ} (hle : n ≤ intMax) {rest : List UInt8}
    (hrest : Mangle.isDigit (rest.headD 0) = false) :
    demangleNatural (decimal n ++ rest) = some (n, rest) := by
  obtain ⟨c, cs, hcs, hdigit, -⟩ := decimal_eq_cons n
  have hpeek : Mangle.isDigit (peekChar (decimal n ++ rest)) = true := by rwa [hcs]
  have hvalue : Nat.ofDigitChars 10 (Nat.toDigits 10 n) 0 = n := Nat.ofDigitChars_ten_toDigits
  rw [demangleNatural, if_pos hpeek, decimal, naturalFrom_digits
    (fun c hc => Nat.isDigit_of_mem_toDigits (by decide) (by decide) hc) (by omega) hrest, hvalue]

/-- Too large a number may be read as another one. -/
example : demangleNatural (['9', '9', '9', '9', '9', '9', '9', '9', '9', '9'].map byte) =
    some (1410065407, []) := by decide

/-! ### Letters -/

section

variable {words : List (List UInt8)} {i : ℕ} {w identifier text : List UInt8}

/-- A letter stands for a word. -/
lemma substitutions_letter {c : UInt8} (hletter : isLetter c = true)
    (hidx : (if isLowerLetter c then c.toNat - 'a'.toNat else c.toNat - 'A'.toNat) = i)
    (hi : words[i]? = some w) : substitutions words true identifier (c :: text) =
      substitutions words (isLowerLetter c) (identifier ++ w) text := by
  have hcond : (true && isLetter c) = true := hletter
  rw [substitutions, if_pos hcond]
  dsimp only
  rw [hidx, hi]

lemma substitutions_lower (hi : words[i]? = some w) (hlt : i < maxNumWords) :
    substitutions words true identifier (.ofNat (i + 'a'.toNat) :: text) =
      substitutions words true (identifier ++ w) text := by
  have hall : ∀ i < 26, isLetter (.ofNat (i + 'a'.toNat)) = true ∧
    isLowerLetter (.ofNat (i + 'a'.toNat)) = true ∧
      (UInt8.ofNat (i + 'a'.toNat)).toNat - 'a'.toNat = i := by decide
  obtain ⟨hletter, hlower, hnat⟩ := hall i hlt
  rw [substitutions_letter hletter (by rw [if_pos hlower, hnat]) hi, hlower]

lemma substitutions_upper (hi : words[i]? = some w) (hlt : i < maxNumWords) :
    substitutions words true identifier (.ofNat (i + 'A'.toNat) :: text) =
      substitutions words false (identifier ++ w) text := by
  have hall : ∀ i < 26, isLetter (.ofNat (i + 'A'.toNat)) = true ∧
    isLowerLetter (.ofNat (i + 'A'.toNat)) = false ∧
      (UInt8.ofNat (i + 'A'.toNat)).toNat - 'A'.toNat = i := by decide
  obtain ⟨hletter, hlower, hnat⟩ := hall i hlt
  rw [substitutions_letter hletter (by rw [if_neg (by rw [hlower]; decide), hnat]) hi, hlower]

lemma substitutions_of_not {hasWordSubsts : Bool}
    (h : hasWordSubsts = true → isLetter (text.headD 0) = false) :
    substitutions words hasWordSubsts identifier text = some ⟨hasWordSubsts, identifier, text⟩ := by
  cases text with
  | nil => rfl
  | cons c text =>
      rw [substitutions, if_neg]
      rw [Bool.and_eq_true]
      rintro ⟨hsubsts, hletter⟩
      exact absurd (hletter.symm.trans (h hsubsts)) (by decide)

end

/-! ### The outer loop -/

section

variable {bound i : ℕ} {hasWordSubsts : Bool} {identifier text w : List UInt8}
  {known : List (List UInt8)}

/-- The loop goes on behind a letter. -/
lemma identifierFrom_of_eq {hasWordSubsts' : Bool} {identifier' text' : List UInt8}
    (h : substitutions known hasWordSubsts identifier text =
      substitutions known hasWordSubsts' identifier' text') :
    identifierFrom false bound hasWordSubsts identifier ⟨text, known⟩ =
      identifierFrom false bound hasWordSubsts' identifier' ⟨text', known⟩ := by
  cases bound with
  | zero => rfl
  | succ bound => rw [identifierFrom, identifierFrom, h]

/-- A zero ends an identifier behind its last word. -/
lemma identifierFrom_zero (identifier text : List UInt8) :
    identifierFrom false (bound + 1) false identifier ⟨byte '0' :: text, known⟩ =
      some (identifier, ⟨text, known⟩) := by
  rw [identifierFrom, substitutions_of_not (by simp)]
  rfl

/-- As many characters are read as the number says. -/
lemma readSlice_decimal {isPunycoded : Bool} {slice : List UInt8} (sep : List UInt8)
    (hne : slice ≠ []) (hle : slice.length ≤ intMax)
    (hdigit : Mangle.isDigit ((sep ++ slice).headD 0) = false)
    (hsep : (if isPunycoded && peekChar (sep ++ (slice ++ text)) == byte '_' then
      (sep ++ (slice ++ text)).tail else sep ++ (slice ++ text)) = slice ++ text) :
    readSlice isPunycoded (decimal slice.length ++ (sep ++ (slice ++ text))) =
      some (slice, text) := by
  have hlength : slice.length ≠ 0 := fun h => hne (List.eq_nil_of_length_eq_zero h)
  have hhead : Mangle.isDigit ((sep ++ (slice ++ text)).headD 0) = false := by
    rw [← List.append_assoc]
    obtain ⟨c, cs, hcs⟩ := List.exists_cons_of_ne_nil
      (List.append_ne_nil_of_right_ne_nil sep hne)
    rw [hcs] at hdigit ⊢
    exact hdigit
  rw [readSlice, demangleNatural_decimal hle hhead]
  dsimp only
  rw [hsep, if_neg, List.take_left, List.drop_left]
  rw [List.length_append]
  omega

lemma isLetter_of_isDigit {c : UInt8} (h : Mangle.isDigit c = true) : isLetter c = false := by
  have hall : ∀ n < 256, Mangle.isDigit (.ofNat n) = true → isLetter (.ofNat n) = false := by
    decide +kernel
  rw [← UInt8.ofNat_toNat (x := c)] at h ⊢
  exact hall c.toNat c.toNat_lt h

/-- A number ends the letters, and it is not the zero behind them. -/
lemma substitutions_decimal {n : ℕ} (hn : n ≠ 0) (words : List (List UInt8))
    (hasWordSubsts : Bool) (identifier text : List UInt8) :
    substitutions words hasWordSubsts identifier (decimal n ++ text) =
        some ⟨hasWordSubsts, identifier, decimal n ++ text⟩ ∧
      peekChar (decimal n ++ text) ≠ byte '0' := by
  obtain ⟨c, cs, hcs, hdigit, hne⟩ := decimal_eq_cons n
  rw [hcs]
  exact ⟨substitutions_of_not fun _ => isLetter_of_isDigit hdigit, hne hn⟩

/-- Pieces are read behind their length. -/
lemma identifierFrom_literal {lit : List (List UInt8)} (hcut : Cut lit) (hne : lit.flatten ≠ [])
    (hdigit : Mangle.isDigit (lit.flatten.headD 0) = false) (hle : lit.flatten.length ≤ intMax) :
    identifierFrom false (bound + 1) hasWordSubsts identifier
        ⟨literalText lit ++ text, known⟩ =
      if hasWordSubsts then
        identifierFrom false bound true (identifier ++ lit.flatten)
          ⟨text, lit.foldl learn known⟩
      else some (identifier ++ lit.flatten, ⟨text, lit.foldl learn known⟩) := by
  have hlength : lit.flatten.length ≠ 0 := fun h => hne (List.eq_nil_of_length_eq_zero h)
  have hslice : readSlice false (decimal lit.flatten.length ++ (lit.flatten ++ text)) =
      some (lit.flatten, text) := readSlice_decimal [] hne hle hdigit rfl
  obtain ⟨hsubst, hpeek⟩ := substitutions_decimal hlength known
    hasWordSubsts identifier (lit.flatten ++ text)
  rw [identifierFrom, literalText, if_neg hne, List.append_assoc]
  dsimp only
  rw [hsubst]
  dsimp only
  rw [if_neg hpeek, hslice]
  dsimp only
  rw [findWords_found hcut]
  rfl

/-- The loop comes to the letter of a word. -/
lemma identifierFrom_pieces {lit : List (List UInt8)} {out : List UInt8} (hcut : Cut lit)
    (hdigit : Mangle.isDigit (lit.flatten.headD 0) = false)
    (hle : (literalText lit ++ out).length ≤ intMax)
    (hbound : (literalText lit ++ out).length < bound) :
    ∃ bound', out.length < bound' ∧
      identifierFrom false bound true identifier ⟨literalText lit ++ (out ++ text), known⟩ =
        identifierFrom false bound' true (identifier ++ lit.flatten)
          ⟨out ++ text, lit.foldl learn known⟩ := by
  rw [List.length_append] at hbound hle
  by_cases hnil : lit.flatten = []
  · obtain rfl := eq_nil_of_flatten hcut.ne_nil hnil
    refine ⟨bound, by omega, ?_⟩
    rw [List.flatten_nil, List.append_nil]
    rfl
  · have hlength : (literalText lit).length = (decimal lit.flatten.length).length +
        lit.flatten.length := by rw [literalText, if_neg hnil, List.length_append]
    have hpos := List.length_pos_iff.2 hnil
    obtain ⟨bound, rfl⟩ := Nat.exists_eq_succ_of_ne_zero (show bound ≠ 0 by omega)
    exact ⟨bound, by omega, identifierFrom_literal hcut hnil hdigit (by omega)⟩

/-- **The loop reads an identifier as its plan says.** -/
lemma identifierFrom_written {p : Plan (List UInt8)} (hrefer : ∀ lit, p ≠ .literal lit)
    (hcut : Cut p.words) (hdigit : Mangle.isDigit (p.words.flatten.headD 0) = false)
    (hsound : Dictionary.Sound fits maxNumWords known p) (hfits : ∀ w ∈ known, fits w = true)
    (hroom : known.length ≤ maxNumWords) (hle : (written p).length ≤ intMax)
    (hbound : (written p).length < bound) :
    identifierFrom false bound true identifier ⟨written p ++ text, known⟩ =
      some (identifier ++ p.words.flatten,
        ⟨text, Dictionary.after fits maxNumWords known p⟩) := by
  induction p generalizing bound identifier known with
  | literal lit => exact absurd rfl (hrefer lit)
  | refer lit i w rest ih =>
      obtain ⟨hi, hsound'⟩ := hsound
      have hcut' : Cut (w :: rest.words) := Cut.right hcut
      have hfits' : ∀ v ∈ lit.foldl learn known, fits v = true :=
        Dictionary.forall_mem_foldl_learn hfits lit
      have hroom' : (lit.foldl learn known).length ≤ maxNumWords :=
        Dictionary.length_foldl_learn_le hroom lit
      have hlt : i < maxNumWords := (List.getElem?_eq_some_iff.1 hi).1.trans_le hroom'
      have hw : fits w = true := hfits' w (List.mem_of_getElem? hi)
      have hlit : Mangle.isDigit (lit.flatten.headD 0) = false := not_digit_left hdigit
      obtain ⟨bound, hbound', heq⟩ := identifierFrom_pieces (Cut.left hcut) hlit hle hbound
      rw [written, List.append_assoc, heq]
      rw [written, List.length_append] at hle
      cases rest with
      | refer lit' i' w' rest' =>
          rw [letter, List.singleton_append, List.cons_append,
            identifierFrom_of_eq (substitutions_lower hi hlt)]
          rw [letter, List.length_append, List.length_singleton] at hle hbound'
          rw [ih (by simp) hcut'.tail (hcut'.not_digit hw) hsound' hfits' hroom' (by omega)
            (by omega)]
          simp [Plan.words, Dictionary.after]
      | literal lit' =>
          have hcutRest : Cut lit' := hcut'.tail
          have hdigitRest : Mangle.isDigit (lit'.flatten.headD 0) = false := hcut'.not_digit hw
          rw [letter, List.cons_append, List.cons_append,
            identifierFrom_of_eq (substitutions_upper hi hlt), written]
          rw [letter, written] at hle hbound'
          obtain ⟨bound, rfl⟩ := Nat.exists_eq_succ_of_ne_zero (Nat.ne_zero_of_lt hbound')
          by_cases hnil : lit'.flatten = []
          · obtain rfl := eq_nil_of_flatten hcutRest.ne_nil hnil
            rw [if_pos hnil, List.append_assoc]
            refine (identifierFrom_zero _ _).trans ?_
            simp [Plan.words, Dictionary.after, literalText]
          · have hlength : lit'.flatten.length ≤ (literalText lit').length := by
              rw [literalText, if_neg hnil, List.length_append]
              exact Nat.le_add_left _ _
            rw [List.length_append] at hle
            rw [if_neg hnil, List.nil_append,
              identifierFrom_literal hcutRest hnil hdigitRest (by omega)]
            simp [Plan.words, Dictionary.after]

end

/-! ### One identifier -/

lemma start_decimal {n : ℕ} (hn : n ≠ 0) (text : List UInt8) :
    Mangle.isDigit (peekChar (decimal n ++ text)) = true ∧
      start (decimal n ++ text) = (false, ⟨false, [], decimal n ++ text⟩) := by
  obtain ⟨c, cs, hcs, hdigit, hne⟩ := decimal_eq_cons n
  rw [hcs]
  exact ⟨hdigit, if_neg (hne hn)⟩

lemma start_zero {text : List UInt8} (h : peekChar text ≠ byte '0') :
    start (byte '0' :: text) = (false, ⟨true, [], text⟩) := by
  rw [start, if_pos rfl, if_neg h]

lemma start_zeros (text : List UInt8) :
    start (byte '0' :: byte '0' :: text) = (true, ⟨false, [], text⟩) := by
  rw [start, if_pos rfl]
  rfl

/-- Neither a number nor a letter is a zero. -/
lemma peekChar_refer {lit : List (List UInt8)} {i : ℕ} (hi : i < maxNumWords) (w : List UInt8)
    (rest : Plan (List UInt8)) (text : List UInt8) :
    peekChar (written (.refer lit i w rest) ++ text) ≠ byte '0' := by
  rw [written, literalText]
  by_cases hnil : lit.flatten = []
  · have hall : ∀ i < 26, UInt8.ofNat (i + 'A'.toNat) ≠ byte '0' ∧
        UInt8.ofNat (i + 'a'.toNat) ≠ byte '0' := by decide
    obtain ⟨hupper, hlower⟩ := hall i hi
    rw [if_pos hnil]
    cases rest with
    | literal => exact hupper
    | refer => exact hlower
  · have hlength : lit.flatten.length ≠ 0 := fun h => hnil (List.eq_nil_of_length_eq_zero h)
    obtain ⟨c, cs, hcs, -, hne⟩ := decimal_eq_cons lit.flatten.length
    rw [if_neg hnil, hcs]
    exact hne hlength

section

variable {known : List (List UInt8)} {text : List UInt8}

lemma demangleIdentifier_of_start {input ident : List UInt8} {s : Bool × Reading} {d : Demangler}
    (hpeek : Mangle.isDigit (peekChar input) = true) (hstart : start input = s)
    (hread : identifierFrom s.1 input.length s.2.hasWordSubsts s.2.identifier ⟨s.2.text, known⟩ =
      some (ident, d)) (hne : ident ≠ []) :
    demangleIdentifier ⟨input, known⟩ = some (ident, d) := by
  rw [demangleIdentifier, if_pos hpeek]
  dsimp only
  rw [hstart, hread, Option.filter_some, if_pos (by simpa using hne)]

/-- An identifier is read with its words. -/
lemma demangleIdentifier_plain {p : Plan (List UInt8)} (hne : p.words.flatten ≠ [])
    (hcut : Cut p.words) (hdigit : Mangle.isDigit (p.words.flatten.headD 0) = false)
    (hsound : Dictionary.Sound fits maxNumWords known p) (hfits : ∀ w ∈ known, fits w = true)
    (hroom : known.length ≤ maxNumWords) (hle : (identifierText p).length ≤ intMax) :
    demangleIdentifier ⟨identifierText p ++ text, known⟩ =
      some (p.words.flatten, ⟨text, Dictionary.after fits maxNumWords known p⟩) := by
  cases p with
  | literal lit =>
      replace hne : lit.flatten ≠ [] := hne
      have hpos : 0 < lit.flatten.length := List.length_pos_iff.2 hne
      have htext : identifierText (.literal lit) = decimal lit.flatten.length ++ lit.flatten := by
        rw [identifierText, written, literalText, if_neg hne]
      obtain ⟨hpeek, hstart⟩ := start_decimal hpos.ne' (lit.flatten ++ text)
      rw [htext, List.length_append] at hle
      obtain ⟨bound, hbound⟩ := Nat.exists_eq_succ_of_ne_zero
        (show (decimal lit.flatten.length ++ (lit.flatten ++ text)).length ≠ 0 by
          rw [List.length_append, List.length_append]; omega)
      rw [htext, List.append_assoc]
      refine demangleIdentifier_of_start hpeek hstart ?_ hne
      have hread : identifierFrom false (bound + 1) false [] ⟨literalText lit ++ text, known⟩ =
          some (lit.flatten, ⟨text, lit.foldl learn known⟩) :=
        identifierFrom_literal hcut hne hdigit (show lit.flatten.length ≤ intMax by omega)
      rw [literalText, if_neg hne, List.append_assoc] at hread
      rw [hbound]
      exact hread
  | refer lit i w rest =>
      have hi : i < maxNumWords := (List.getElem?_eq_some_iff.1 hsound.1).1.trans_le
        (Dictionary.length_foldl_learn_le hroom lit)
      have hpeek : peekChar (written (.refer lit i w rest) ++ text) ≠ byte '0' :=
        peekChar_refer hi w rest text
      rw [identifierText] at hle ⊢
      rw [List.length_cons] at hle
      refine demangleIdentifier_of_start rfl (start_zero hpeek) ?_ hne
      refine identifierFrom_written (by simp) hcut hdigit hsound hfits hroom (by omega) ?_
      rw [List.cons_append, List.length_cons, List.length_append]
      omega

/-- An identifier in Punycode is decoded.  No words are learned. -/
lemma demangleIdentifier_punycode {pcIdent ident : List UInt8}
    (hdecode : decodePunycodeUTF8 pcIdent = some ident) (hne : ident ≠ [])
    (hle : pcIdent.length ≤ intMax) : demangleIdentifier ⟨punycodeText pcIdent ++ text, known⟩ =
      some (ident, ⟨text, known⟩) := by
  have hpc : pcIdent ≠ [] := by
    rintro rfl
    exact hne (Option.some.inj hdecode).symm
  have hlength : pcIdent.length ≠ 0 := fun h => hpc (List.eq_nil_of_length_eq_zero h)
  obtain ⟨c, cs, rfl⟩ := List.exists_cons_of_ne_nil hpc
  rw [punycodeText]
  generalize hsep : (if Mangle.isDigit ((c :: cs).headD 0) || (c :: cs).headD 0 == byte '_' then
    [byte '_'] else []) = sep
  have hdigit : Mangle.isDigit ((sep ++ c :: cs).headD 0) = false := by
    rw [← hsep]
    split
    · rfl
    · rename_i h
      rw [Bool.or_eq_true, not_or, Bool.not_eq_true] at h
      exact h.1
  have hskip : (if true && peekChar (sep ++ (c :: cs ++ text)) == byte '_' then
      (sep ++ (c :: cs ++ text)).tail else sep ++ (c :: cs ++ text)) = c :: cs ++ text := by
    rw [← hsep]
    split
    · rfl
    · rename_i h
      have hc : (c == byte '_') = false := by
        rw [Bool.or_eq_true, not_or, Bool.not_eq_true, Bool.not_eq_true] at h
        exact h.2
      exact if_neg (by rw [show peekChar ([] ++ (c :: cs ++ text)) = c from rfl, hc]; decide)
  have hslice := readSlice_decimal sep hpc hle hdigit hskip
  obtain ⟨hsubst, hpeek⟩ := substitutions_decimal hlength known false [] (sep ++ (c :: cs ++ text))
  rw [List.cons_append, List.cons_append, List.append_assoc, List.append_assoc]
  refine demangleIdentifier_of_start rfl (start_zeros _) ?_ hne
  show identifierFrom true (List.length _ + 1) false [] ⟨_, known⟩ = _
  rw [identifierFrom, hsubst]
  dsimp only
  rw [if_neg hpeek, hslice]
  dsimp only
  rw [if_pos rfl, hdecode]
  rfl

end

end Demangler

open Demangler

/-! ### All identifiers of a name -/

/-- The strings that can be identifiers.  A digit at the start would be replaced. -/
structure IsIdentifier (usePunycode : Bool) (ident : List UInt8) : Prop where
  ne_nil : ident ≠ []
  plain : (usePunycode && needsPunycodeEncoding ident) = false →
    Mangle.isDigit (ident.headD 0) = false
  encoded : (usePunycode && needsPunycodeEncoding ident) = true →
    ident.length < 1927 ∧ ∃ cs : List Char, ident = cs.flatMap String.utf8EncodeChar

/-- The words of the mangler are those of the demangler. -/
structure Agree (m : Mangler) (words : List (List UInt8)) : Prop where
  knows : Knows m.buffer m.words words
  fits : ∀ w ∈ words, fits w = true
  room : words.length ≤ maxNumWords

lemma agree_initial (usePunycode : Bool) (buffer : List UInt8) :
    Agree ⟨usePunycode, [], buffer⟩ [] :=
  ⟨.nil, fun _ hw => absurd hw List.not_mem_nil, Nat.zero_le _⟩

/-- What is written of an identifier is read as this identifier, and the words are the same
again. -/
lemma Agree.mangleIdentifier {m : Mangler} {words : List (List UInt8)} {ident : List UInt8}
    (h : Agree m words) (hident : IsIdentifier m.usePunycode ident) :
    ∃ out words', (Mangle.mangleIdentifier m ident).usePunycode = m.usePunycode ∧
      (Mangle.mangleIdentifier m ident).buffer = m.buffer ++ out ∧
      Agree (Mangle.mangleIdentifier m ident) words' ∧ (out.length ≤ intMax → ∀ text,
        demangleIdentifier ⟨out ++ text, words⟩ = some (ident, ⟨text, words'⟩)) := by
  cases hpunycode : m.usePunycode && needsPunycodeEncoding ident with
  | true =>
      obtain ⟨hlength, cs, rfl⟩ := hident.encoded hpunycode
      obtain ⟨pcIdent, hencode, hdecode⟩ := encodePunycodeUTF8_chars hlength true
      rw [mangleIdentifier_punycode hpunycode, (encodePunycodeUTF8_eq_some.1 hencode).2]
      refine ⟨punycodeText pcIdent, words, rfl, rfl, ⟨h.knows.append _, h.fits, h.room⟩,
        fun hle text => demangleIdentifier_punycode hdecode hident.ne_nil (le_trans ?_ hle)⟩
      rw [punycodeText, List.length_cons, List.length_cons, List.length_append, List.length_append]
      omega
  | false =>
      have hdigit := hident.plain hpunycode
      obtain ⟨huse, hbuffer, hknows⟩ := mangleIdentifier_plain hpunycode hdigit h.knows h.fits
      obtain ⟨hwords, hsound⟩ : (plan words (pieces ident)).words = pieces ident ∧
          Dictionary.Sound Mangle.fits maxNumWords words (plan words (pieces ident)) :=
        Dictionary.write_spec words (pieces ident)
      have hflatten := flatten_pieces ident
      have hcut := cut_pieces ident
      generalize plan words (pieces ident) = p at hwords hsound hbuffer hknows
      rw [← hwords] at hflatten hcut
      have hagree : Agree (Mangle.mangleIdentifier m ident)
          (Dictionary.after Mangle.fits maxNumWords words p) :=
        ⟨hknows, Dictionary.forall_mem_after h.fits p, Dictionary.length_after_le h.room p⟩
      refine ⟨identifierText p, _, huse, hbuffer, hagree, fun hle text => ?_⟩
      rw [demangleIdentifier_plain (by rw [hflatten]; exact hident.ne_nil) hcut
        (by rw [hflatten]; exact hdigit) hsound h.fits h.room hle, hflatten]

/-- The identifiers of a name are mangled one after another, each with what comes before it. -/
def Mangle.Mangler.mangleAll (m : Mangler) (items : List (List UInt8 × List UInt8)) : Mangler :=
  items.foldl (fun m item => mangleIdentifier { m with buffer := m.buffer ++ item.1 } item.2) m

/-- The identifiers of a name are demangled one after another, each behind what comes before it. -/
def Demangler.demangleAll (d : Demangler) :
    List (List UInt8) → Option (List (List UInt8) × Demangler)
  | [] => some ([], d)
  | before :: items => do
      let (ident, d) ← demangleIdentifier { d with text := d.text.drop before.length }
      let (idents, d) ← d.demangleAll items
      return (ident :: idents, d)

/-- **All identifiers of a name come back**, with the words that they share left out. -/
theorem Agree.demangleAll_mangleAll {m : Mangler} {words : List (List UInt8)}
    {items : List (List UInt8 × List UInt8)} (h : Agree m words)
    (hidents : ∀ item ∈ items, IsIdentifier m.usePunycode item.2) :
    ∃ out words', (m.mangleAll items).buffer = m.buffer ++ out ∧ Agree (m.mangleAll items) words' ∧
      (out.length ≤ intMax → ∀ text,
        Demangler.demangleAll ⟨out ++ text, words⟩ (items.map Prod.fst) =
          some (items.map Prod.snd, ⟨text, words'⟩)) := by
  induction items generalizing m words with
  | nil => exact ⟨[], words, (List.append_nil _).symm, h, fun _ _ => rfl⟩
  | cons item items ih =>
      obtain ⟨before, ident⟩ := item
      obtain ⟨hident, hidents'⟩ := List.forall_mem_cons.1 hidents
      have hbefore : Agree { m with buffer := m.buffer ++ before } words :=
        ⟨h.knows.append before, h.fits, h.room⟩
      obtain ⟨out₁, words₁, huse, hbuffer, hagree, hread⟩ := hbefore.mangleIdentifier hident
      obtain ⟨out₂, words₂, hbuffer', hagree', hread'⟩ :=
        ih hagree fun item hitem => by rw [huse]; exact hidents' item hitem
      refine ⟨before ++ (out₁ ++ out₂), words₂, ?_, hagree', fun hle text => ?_⟩
      · refine hbuffer'.trans ?_
        rw [hbuffer, List.append_assoc, List.append_assoc]
      · rw [List.length_append, List.length_append] at hle
        rw [List.map_cons, Demangler.demangleAll]
        dsimp only
        rw [List.append_assoc, List.append_assoc, List.drop_left, hread (by omega)]
        dsimp only [Option.bind_eq_bind, Option.bind_some]
        rw [hread' (by omega)]
        rfl

/-- A name with a word that is left out and an identifier in Punycode. -/
def sampleName : List (List UInt8 × List UInt8) :=
  [(['$', 's'].map byte, ['M', 'y', 'V', 'i', 'e', 'w'].map byte),
    ([], ['S', 'u', 'b', 'V', 'i', 'e', 'w'].map byte),
    (['C'].map byte, ['x', 'ü', ' '].flatMap String.utf8EncodeChar)]

lemma isIdentifier_sampleName : ∀ item ∈ sampleName, IsIdentifier true item.2 :=
  List.forall_mem_cons.2 ⟨⟨by decide, fun _ => rfl, fun h => absurd h (by decide)⟩,
    List.forall_mem_cons.2 ⟨⟨by decide, fun _ => rfl, fun h => absurd h (by decide)⟩,
      List.forall_mem_singleton.2 ⟨by decide, fun _ => rfl, fun _ => ⟨by decide, _, rfl⟩⟩⟩⟩

theorem Agree.demangleAll_mangleAll_sample :
    (∀ item ∈ sampleName, IsIdentifier true item.2) ∧
      ∃ out words', (Mangler.mangleAll ⟨true, [], []⟩ sampleName).buffer = [] ++ out ∧
        Agree (Mangler.mangleAll ⟨true, [], []⟩ sampleName) words' ∧
        (out.length ≤ intMax → ∀ text,
          Demangler.demangleAll ⟨out ++ text, []⟩ (sampleName.map Prod.fst) =
            some (sampleName.map Prod.snd, ⟨text, words'⟩)) :=
  ⟨isIdentifier_sampleName, (agree_initial true []).demangleAll_mangleAll isIdentifier_sampleName⟩

end ICDump
