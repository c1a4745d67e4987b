/-
Punycode of strings (`Punycode.cpp`).

What `encodePunycodeUTF8` is given and what `decodePunycodeUTF8` returns are bytes.  The conversion
to code points checks little: it takes overlong forms, and the places from `0xD800` on that it uses
itself for the characters that symbols cannot have.  Still only the encodings of characters come
back as they were.
-/
import Mathlib.Data.Nat.Bitwise
import Mathlib.Data.List.Basic
import ICDump.Swift.RoundTrip

namespace ICDump

namespace Mangle

/-- The byte of an ASCII character. -/
def byte (c : Char) : UInt8 := .ofNat c.toNat

/-- `isLowerLetter`. -/
def isLowerLetter (ch : UInt8) : Bool := decide (byte 'a' ≤ ch) && decide (ch ≤ byte 'z')

/-- `isUpperLetter`. -/
def isUpperLetter (ch : UInt8) : Bool := decide (byte 'A' ≤ ch) && decide (ch ≤ byte 'Z')

/-- `isDigit`. -/
def isDigit (ch : UInt8) : Bool := decide (byte '0' ≤ ch) && decide (ch ≤ byte '9')

/-- `isLetter`. -/
def isLetter (ch : UInt8) : Bool := isLowerLetter ch || isUpperLetter ch

/-- `isValidSymbolChar`. -/
def isValidSymbolChar (ch : UInt8) : Bool :=
  isLetter ch || isDigit ch || ch == byte '_' || ch == byte '$'

end Mangle

namespace Punycode

/-! ### To UTF-8 -/

/-- What `encodeToUTF8` appends for a valid scalar. -/
def encodeScalar (scalar : ℕ) : List UInt8 :=
  let s := if scalar ≥ 0xD800 ∧ scalar < 0xD880 then scalar - 0xD800 else scalar
  if s < 0x80 then [.ofNat s]
  else if s < 0x800 then [.ofNat (s >>> 6 ||| 0xC0), .ofNat ((s ||| 0x80) &&& 0xBF)]
  else if s < 0x10000 then
    [.ofNat (s >>> 6 >>> 6 ||| 0xE0), .ofNat ((s >>> 6 ||| 0x80) &&& 0xBF),
      .ofNat ((s ||| 0x80) &&& 0xBF)]
  else
    [.ofNat (s >>> 6 >>> 6 >>> 6 ||| 0xF0), .ofNat ((s >>> 6 >>> 6 ||| 0x80) &&& 0xBF),
      .ofNat ((s >>> 6 ||| 0x80) &&& 0xBF), .ofNat ((s ||| 0x80) &&& 0xBF)]

/-- `encodeToUTF8`. -/
def encodeToUTF8 : List ℕ → Option (List UInt8)
  | [] => some []
  | s :: scalars =>
      if isValidUnicodeScalar s then do
        let out ← encodeToUTF8 scalars
        return encodeScalar s ++ out
      else none

/-- `decodePunycodeUTF8`. -/
def decodePunycodeUTF8 (inputPunycode : List UInt8) : Option (List UInt8) := do
  let outCodePoints ← decodePunycode inputPunycode
  encodeToUTF8 outCodePoints

/-! ### From UTF-8 -/

/-- `isContinuationByte`. -/
def isContinuationByte (unit : UInt8) : Bool := unit &&& 0xC0 == 0x80

/-- The code point that starts with `first`, and what is behind it. -/
def readCodePoint (mapNonSymbolChars : Bool) (first : UInt8) (input : List UInt8) :
    Option (ℕ × List UInt8) :=
  if first < 0x80 then
    if Mangle.isValidSymbolChar first || !mapNonSymbolChars then some (first.toNat, input)
    else some (first.toNat + 0xD800, input)
  else if first < 0xC0 then none
  else if first < 0xE0 then
    match input with
    | second :: input =>
        if !isContinuationByte second then none
        else some ((first &&& 0x1F).toNat <<< 6 ||| (second &&& 0x3F).toNat, input)
    | [] => none
  else if first < 0xF0 then
    match input with
    | second :: third :: input =>
        if !isContinuationByte second || !isContinuationByte third then none
        else some ((first &&& 0xF).toNat <<< 12 ||| (second &&& 0x3F).toNat <<< 6 |||
          (third &&& 0x3F).toNat, input)
    | _ => none
  else if first < 0xF8 then
    match input with
    | second :: third :: fourth :: input =>
        if !isContinuationByte second || !isContinuationByte third ||
          !isContinuationByte fourth then none
        else some ((first &&& 0x7).toNat <<< 18 ||| (second &&& 0x3F).toNat <<< 12 |||
          (third &&& 0x3F).toNat <<< 6 ||| (fourth &&& 0x3F).toNat, input)
    | _ => none
  else none

/-- The loop of `convertUTF8toUTF32`, with a bound on its iterations. -/
def convertFrom (mapNonSymbolChars : Bool) : ℕ → List UInt8 → Option (List ℕ)
  | _, [] => some []
  | 0, _ :: _ => none
  | bound + 1, first :: input => do
      let r ← readCodePoint mapNonSymbolChars first input
      if isValidUnicodeScalar r.1 then
        let outUTF32 ← convertFrom mapNonSymbolChars bound r.2
        return r.1 :: outUTF32
      else none

/-- `convertUTF8toUTF32`. -/
def convertUTF8toUTF32 (inputUTF8 : List UInt8) (mapNonSymbolChars : Bool) : Option (List ℕ) :=
  convertFrom mapNonSymbolChars inputUTF8.length inputUTF8

/-- `encodePunycodeUTF8`: what it returns, and `OutPunycode`, which is empty before. -/
def encodeUTF8 (inputUTF8 : List UInt8) (mapNonSymbolChars : Bool) : Bool × List UInt8 :=
  match convertUTF8toUTF32 inputUTF8 mapNonSymbolChars with
  | some inputCodePoints => encode inputCodePoints
  | none => (false, [])

/-- The output of `encodePunycodeUTF8`, if it succeeds. -/
def encodePunycodeUTF8 (inputUTF8 : List UInt8) (mapNonSymbolChars : Bool) :
    Option (List UInt8) :=
  let r := encodeUTF8 inputUTF8 mapNonSymbolChars
  if r.1 then some r.2 else none

/-! ### Characters -/

/-- A byte that is not the first one of a character. -/
lemma ofNat_tail (s : ℕ) : UInt8.ofNat ((s ||| 0x80) &&& 0xBF) = .ofNat (s % 0x40 + 0x80) := by
  have hall : ∀ x < 2 ^ 8, (x ||| 0x80) &&& 0xBF = x % 0x40 + 0x80 := by decide +kernel
  have hmod := Nat.and_mod_two_pow (a := s ||| 0x80) (b := 0xBF) (n := 8)
  rw [Nat.or_mod_two_pow] at hmod
  have hle : (s ||| 0x80) &&& 0xBF ≤ 0xBF := Nat.and_le_right
  rw [Nat.mod_eq_of_lt (by omega)] at hmod
  rw [hmod, show 0x80 % 2 ^ 8 = 0x80 from rfl, show 0xBF % 2 ^ 8 = 0xBF from rfl,
    hall _ (Nat.mod_lt _ (by decide))]
  congr 2
  omega

/-- The scalar that is written for one, which may be the place of a character. -/
def unmap (s : ℕ) : ℕ := if s ≥ 0xD800 ∧ s < 0xD880 then s - 0xD800 else s

lemma encodeScalar_eq {s : ℕ} {c : Char} (h : c.toNat = unmap s) :
    encodeScalar s = String.utf8EncodeChar c := by
  have hv : c.val.toNat = unmap s := h
  have hlead2 : ∀ a < 0x20, UInt8.ofNat (a ||| 0xC0) = .ofNat (a % 0x20 + 0xC0) := by decide
  have hlead3 : ∀ a < 0x10, UInt8.ofNat (a ||| 0xE0) = .ofNat (a % 0x10 + 0xE0) := by decide
  have hlead4 : ∀ a < 0x08, UInt8.ofNat (a ||| 0xF0) = .ofNat (a % 0x08 + 0xF0) := by decide
  have hmax : unmap s < 0x110000 := by
    rcases c.valid with hc | hc
    · have hlt : c.val.toNat < 0xD800 := hc
      omega
    · have hlt : c.val.toNat < 0x110000 := hc.2
      omega
  rw [String.utf8EncodeChar, encodeScalar]
  simp only [hv]
  rw [← unmap]
  generalize unmap s = v at hmax
  simp only [Nat.shiftRight_eq_div_pow, ofNat_tail, Nat.div_div_eq_div_mul]
  split_ifs with h₁ h₂ h₃ h₄ h₅ h₆ <;> first | omega | skip
  · rfl
  · rw [hlead2 _ (by omega)]
  · rw [hlead3 _ (by omega)]
  · rw [hlead4 _ (by omega)]

lemma exists_char {s : ℕ} (h : isValidUnicodeScalar s = true) : ∃ c : Char, c.toNat = unmap s := by
  have hvalid : (unmap s).isValidChar := by
    simp only [isValidUnicodeScalar, Bool.or_eq_true, Bool.and_eq_true, decide_eq_true_eq] at h
    rw [unmap, Nat.isValidChar]
    split_ifs <;> omega
  refine ⟨Char.ofNat (unmap s), ?_⟩
  rw [Char.ofNat, dif_pos hvalid]
  rfl

/-- The place of a character among the scalars. -/
def mapped (mapNonSymbolChars : Bool) (c : Char) : ℕ :=
  if c.toNat < 0x80 ∧ !(Mangle.isValidSymbolChar (.ofNat c.toNat) || !mapNonSymbolChars) then
    c.toNat + 0xD800
  else c.toNat

lemma toNat_valid (c : Char) : c.toNat < 0xD800 ∨ 0xE000 ≤ c.toNat ∧ c.toNat < 0x110000 := by
  rcases c.valid with hc | hc
  · exact Or.inl hc
  · have hlo : 0xDFFF < c.toNat := hc.1
    exact Or.inr ⟨hlo, hc.2⟩

lemma unmap_mapped (map : Bool) (c : Char) : unmap (mapped map c) = c.toNat := by
  have hvalid := toNat_valid c
  rw [mapped, unmap]
  split_ifs <;> omega

lemma isValidUnicodeScalar_mapped (map : Bool) (c : Char) :
    isValidUnicodeScalar (mapped map c) = true := by
  have hvalid := toNat_valid c
  simp only [isValidUnicodeScalar, Bool.or_eq_true, Bool.and_eq_true, decide_eq_true_eq]
  rw [mapped]
  split_ifs <;> omega

/-- The bits of such a byte. -/
lemma readTail {b : ℕ} (h : b < 0x40) : isContinuationByte (.ofNat (b + 0x80)) = true ∧
    (UInt8.ofNat (b + 0x80) &&& 0x3F).toNat = b := by
  have hall : ∀ b < 0x40, isContinuationByte (.ofNat (b + 0x80)) = true ∧
    (UInt8.ofNat (b + 0x80) &&& 0x3F).toNat = b := by decide
  exact hall b h

section

variable (map : Bool) (input : List UInt8)

lemma readCodePoint_one {v : ℕ} (hv : v < 0x80) : readCodePoint map (.ofNat v) input =
    some (if !(Mangle.isValidSymbolChar (.ofNat v) || !map) then v + 0xD800 else v, input) := by
  have hlt : UInt8.ofNat v < 0x80 := by
    rw [UInt8.lt_iff_toNat_lt, UInt8.toNat_ofNat']
    show v % 256 < 128
    omega
  have htoNat : (UInt8.ofNat v).toNat = v := by
    rw [UInt8.toNat_ofNat']
    omega
  unfold readCodePoint
  rw [if_pos hlt, htoNat]
  by_cases hsymbol : (Mangle.isValidSymbolChar (.ofNat v) || !map) = true
  · rw [if_pos hsymbol, if_neg (by simp [hsymbol])]
  · rw [if_neg hsymbol, if_pos (by simpa using hsymbol)]

lemma readCodePoint_two {a b : ℕ} (ha : a < 0x20) (hb : b < 0x40) :
    readCodePoint map (.ofNat (a + 0xC0)) (.ofNat (b + 0x80) :: input) =
      some (a * 0x40 + b, input) := by
  have hall : ∀ a < 0x20, ¬ UInt8.ofNat (a + 0xC0) < 0x80 ∧ ¬ UInt8.ofNat (a + 0xC0) < 0xC0 ∧
    UInt8.ofNat (a + 0xC0) < 0xE0 ∧ (UInt8.ofNat (a + 0xC0) &&& 0x1F).toNat = a := by decide
  obtain ⟨h₁, h₂, h₃, hbits⟩ := hall a ha
  obtain ⟨hcont, hb'⟩ := readTail hb
  unfold readCodePoint
  rw [if_neg h₁, if_neg h₂, if_pos h₃]
  simp only [hcont, hbits, hb']
  rw [if_neg (by decide), ← Nat.shiftLeft_add_eq_or_of_lt hb, Nat.shiftLeft_eq]

lemma readCodePoint_three {a b c : ℕ} (ha : a < 0x10) (hb : b < 0x40) (hc : c < 0x40) :
    readCodePoint map (.ofNat (a + 0xE0)) (.ofNat (b + 0x80) :: .ofNat (c + 0x80) :: input) =
      some (a * 0x1000 + (b * 0x40 + c), input) := by
  have hall : ∀ a < 0x10, ¬ UInt8.ofNat (a + 0xE0) < 0x80 ∧ ¬ UInt8.ofNat (a + 0xE0) < 0xC0 ∧
    ¬ UInt8.ofNat (a + 0xE0) < 0xE0 ∧ UInt8.ofNat (a + 0xE0) < 0xF0 ∧
      (UInt8.ofNat (a + 0xE0) &&& 0xF).toNat = a := by decide
  obtain ⟨h₁, h₂, h₃, h₄, hbits⟩ := hall a ha
  obtain ⟨hcont, hb'⟩ := readTail hb
  obtain ⟨hcont', hc'⟩ := readTail hc
  unfold readCodePoint
  rw [if_neg h₁, if_neg h₂, if_neg h₃, if_pos h₄]
  simp only [hcont, hcont', hbits, hb', hc']
  rw [if_neg (by decide), Nat.or_assoc, ← Nat.shiftLeft_add_eq_or_of_lt hc b, Nat.shiftLeft_eq b,
    ← Nat.shiftLeft_add_eq_or_of_lt (show b * 2 ^ 6 + c < 2 ^ 12 by omega), Nat.shiftLeft_eq]
  rfl

lemma readCodePoint_four {a b c d : ℕ} (ha : a < 0x08) (hb : b < 0x40) (hc : c < 0x40)
    (hd : d < 0x40) : readCodePoint map (.ofNat (a + 0xF0))
      (.ofNat (b + 0x80) :: .ofNat (c + 0x80) :: .ofNat (d + 0x80) :: input) =
      some (a * 0x40000 + (b * 0x1000 + (c * 0x40 + d)), input) := by
  have hall : ∀ a < 0x08, ¬ UInt8.ofNat (a + 0xF0) < 0x80 ∧ ¬ UInt8.ofNat (a + 0xF0) < 0xC0 ∧
    ¬ UInt8.ofNat (a + 0xF0) < 0xE0 ∧ ¬ UInt8.ofNat (a + 0xF0) < 0xF0 ∧
      UInt8.ofNat (a + 0xF0) < 0xF8 ∧ (UInt8.ofNat (a + 0xF0) &&& 0x7).toNat = a := by decide
  obtain ⟨h₁, h₂, h₃, h₄, h₅, hbits⟩ := hall a ha
  obtain ⟨hcont, hb'⟩ := readTail hb
  obtain ⟨hcont', hc'⟩ := readTail hc
  obtain ⟨hcont'', hd'⟩ := readTail hd
  unfold readCodePoint
  rw [if_neg h₁, if_neg h₂, if_neg h₃, if_neg h₄, if_pos h₅]
  simp only [hcont, hcont', hcont'', hbits, hb', hc', hd']
  rw [if_neg (by decide), Nat.or_assoc, Nat.or_assoc, ← Nat.shiftLeft_add_eq_or_of_lt hd c,
    Nat.shiftLeft_eq c, ← Nat.shiftLeft_add_eq_or_of_lt (show c * 2 ^ 6 + d < 2 ^ 12 by omega) b,
    Nat.shiftLeft_eq b,
    ← Nat.shiftLeft_add_eq_or_of_lt (show b * 2 ^ 12 + (c * 2 ^ 6 + d) < 2 ^ 18 by omega),
    Nat.shiftLeft_eq]
  rfl

/-- A character is read from its encoding. -/
lemma readCodePoint_encode (c : Char) : ∃ first tail, String.utf8EncodeChar c = first :: tail ∧
    readCodePoint map first (tail ++ input) = some (mapped map c, input) := by
  have hvalid := toNat_valid c
  have hval : c.val.toNat = c.toNat := rfl
  rw [String.utf8EncodeChar]
  simp only [hval]
  by_cases hlt : c.toNat < 0x80
  · rw [if_pos (by omega)]
    refine ⟨_, _, rfl, ?_⟩
    rw [List.nil_append, readCodePoint_one map input hlt, mapped]
    simp only [hlt, true_and]
  · have hmapped : mapped map c = c.toNat := by rw [mapped, if_neg fun h => hlt h.1]
    rw [if_neg (by omega), hmapped]
    generalize c.toNat = v at hvalid hlt
    have hmod : ∀ n : ℕ, n % 0x40 < 0x40 := fun n => Nat.mod_lt n (by decide)
    split_ifs
    · refine ⟨_, _, rfl, ?_⟩
      rw [List.singleton_append, readCodePoint_two map input (by omega) (hmod _)]
      congr 2
      omega
    · refine ⟨_, _, rfl, ?_⟩
      rw [List.cons_append, List.singleton_append,
        readCodePoint_three map input (by omega) (hmod _) (hmod _)]
      congr 2
      omega
    · refine ⟨_, _, rfl, ?_⟩
      rw [List.cons_append, List.cons_append, List.singleton_append,
        readCodePoint_four map input (by omega) (hmod _) (hmod _) (hmod _)]
      congr 2
      omega

end

/-! ### Whole strings -/

lemma convertFrom_encode (map : Bool) {cs : List Char} {bound : ℕ}
    (h : (cs.flatMap String.utf8EncodeChar).length ≤ bound) :
    convertFrom map bound (cs.flatMap String.utf8EncodeChar) = some (cs.map (mapped map)) := by
  induction cs generalizing bound with
  | nil =>
      cases bound <;> rfl
  | cons c cs ih =>
      obtain ⟨first, tail, hc, hread⟩ :=
        readCodePoint_encode map (cs.flatMap String.utf8EncodeChar) c
      rw [List.flatMap_cons, hc, List.cons_append, List.length_cons, List.length_append] at h
      obtain ⟨bound, rfl⟩ := Nat.exists_eq_succ_of_ne_zero (show bound ≠ 0 by omega)
      rw [List.flatMap_cons, hc, List.cons_append, convertFrom, hread]
      simp only [Option.bind_eq_bind, Option.bind_some]
      rw [if_pos (isValidUnicodeScalar_mapped map c), ih (by omega)]
      rfl

lemma encodeToUTF8_mapped (map : Bool) (cs : List Char) :
    encodeToUTF8 (cs.map (mapped map)) = some (cs.flatMap String.utf8EncodeChar) := by
  induction cs with
  | nil => rfl
  | cons c cs ih =>
      rw [List.map_cons, encodeToUTF8, if_pos (isValidUnicodeScalar_mapped map c), ih,
        encodeScalar_eq (unmap_mapped map c).symm]
      rfl

lemma length_le_encode (cs : List Char) :
    cs.length ≤ (cs.flatMap String.utf8EncodeChar).length := by
  induction cs with
  | nil => exact le_rfl
  | cons c cs ih =>
      have hpos := List.length_pos_iff.2 (String.utf8EncodeChar_ne_nil (c := c))
      rw [List.flatMap_cons, List.length_append, List.length_cons]
      omega

/-- What is made of scalars are characters. -/
lemma encodeToUTF8_wellFormed {scalars : List ℕ} {out : List UInt8}
    (h : encodeToUTF8 scalars = some out) : ∃ cs : List Char,
    out = cs.flatMap String.utf8EncodeChar := by
  induction scalars generalizing out with
  | nil =>
      obtain rfl := Option.some.inj h
      exact ⟨[], rfl⟩
  | cons s scalars ih =>
      rw [encodeToUTF8] at h
      split_ifs at h with hs
      obtain ⟨out', hout', h⟩ := Option.bind_eq_some_iff.1 h
      obtain rfl := Option.some.inj h
      obtain ⟨cs, rfl⟩ := ih hout'
      obtain ⟨c, hc⟩ := exists_char hs
      exact ⟨c :: cs, by rw [encodeScalar_eq hc, List.flatMap_cons]⟩

/-- **What is decoded is well-formed UTF-8**, whatever the bytes are. -/
theorem decodePunycodeUTF8_wellFormed {input out : List UInt8}
    (h : decodePunycodeUTF8 input = some out) : ∃ cs : List Char,
    out = cs.flatMap String.utf8EncodeChar := by
  obtain ⟨scalars, -, h⟩ := Option.bind_eq_some_iff.1 h
  exact encodeToUTF8_wellFormed h

theorem decodePunycodeUTF8_wellFormed_umlaut :
    decodePunycodeUTF8 [98, 99, 104, 101, 114, 95, 107, 118, 97] =
        some [98, 195, 188, 99, 104, 101, 114] ∧
      ∃ cs : List Char, [98, 195, 188, 99, 104, 101, 114] = cs.flatMap String.utf8EncodeChar :=
  have hdecode : decodePunycodeUTF8 [98, 99, 104, 101, 114, 95, 107, 118, 97] =
      some [98, 195, 188, 99, 104, 101, 114] := by decide
  ⟨hdecode, decodePunycodeUTF8_wellFormed hdecode⟩

lemma encodePunycodeUTF8_eq_some {input out : List UInt8} {map : Bool} :
    encodePunycodeUTF8 input map = some out ↔
      (encodeUTF8 input map).1 = true ∧ (encodeUTF8 input map).2 = out := by
  rw [encodePunycodeUTF8]
  split_ifs with h <;> simp [h]

lemma encodeUTF8_chars (cs : List Char) (map : Bool) :
    encodeUTF8 (cs.flatMap String.utf8EncodeChar) map = encode (cs.map (mapped map)) := by
  rw [encodeUTF8, convertUTF8toUTF32, convertFrom_encode map le_rfl]

lemma isValidUnicodeScalar_chars (cs : List Char) (map : Bool) :
    ∀ c ∈ cs.map (mapped map), isValidUnicodeScalar c = true :=
  List.forall_mem_map.2 fun c _ => isValidUnicodeScalar_mapped map c

/-- A short string of characters is encoded, and comes back. -/
lemma encodePunycodeUTF8_chars {cs : List Char}
    (hlength : (cs.flatMap String.utf8EncodeChar).length < 1927) (map : Bool) :
    ∃ out, encodePunycodeUTF8 (cs.flatMap String.utf8EncodeChar) map = some out ∧
      decodePunycodeUTF8 out = some (cs.flatMap String.utf8EncodeChar) := by
  have hcs : (cs.map (mapped map)).length < 1927 := by
    rw [List.length_map]
    exact (length_le_encode cs).trans_lt hlength
  have hencode := encode_fst hcs (isValidUnicodeScalar_chars cs map)
  have hdecode := decodePunycode_of_short hcs (encodePunycode_eq_some.2 ⟨hencode, rfl⟩)
  refine ⟨_, encodePunycodeUTF8_eq_some.2 ⟨?_, rfl⟩, ?_⟩
  · rwa [encodeUTF8_chars]
  · rw [encodeUTF8_chars]
    show (decodePunycode _).bind encodeToUTF8 = _
    rw [hdecode]
    exact encodeToUTF8_mapped map cs

/-- **Exactly the strings come back that are well-formed UTF-8**, whether or not the characters
that symbols cannot have are mapped. -/
theorem decode_encodeUTF8_iff {input : List UInt8} (hlength : input.length < 1927) (map : Bool) :
    (encodePunycodeUTF8 input map).bind decodePunycodeUTF8 = some input ↔
      ∃ cs : List Char, input = cs.flatMap String.utf8EncodeChar := by
  constructor
  · intro h
    obtain ⟨out, -, h⟩ := Option.bind_eq_some_iff.1 h
    obtain ⟨scalars, -, h⟩ := Option.bind_eq_some_iff.1 h
    exact encodeToUTF8_wellFormed h
  · rintro ⟨cs, rfl⟩
    obtain ⟨out, hout, hdecode⟩ := encodePunycodeUTF8_chars hlength map
    exact Option.bind_eq_some_iff.2 ⟨out, hout, hdecode⟩

theorem decode_encodeUTF8_iff_space :
    [98, 195, 188, 32].length < 1927 ∧
      ((encodePunycodeUTF8 [98, 195, 188, 32] true).bind decodePunycodeUTF8 =
        some [98, 195, 188, 32] ↔
          ∃ cs : List Char, [98, 195, 188, 32] = cs.flatMap String.utf8EncodeChar) :=
  ⟨by decide, decode_encodeUTF8_iff (by decide) true⟩

/-- Digits are letters. -/
lemma isValidSymbolChar_of_digitIndex {c : UInt8} (h : (digitIndex c).isSome) :
    Mangle.isValidSymbolChar c = true := by
  have hall : ∀ n < 256, (digitIndex (.ofNat n)).isSome →
    Mangle.isValidSymbolChar (.ofNat n) = true := by decide +kernel
  rw [← UInt8.ofNat_toNat (x := c)] at h ⊢
  exact hall c.toNat c.toNat_lt h

lemma isValidSymbolChar_mapped {c : Char} (h : mapped true c < 0x80) :
    Mangle.isValidSymbolChar (.ofNat (mapped true c)) = true := by
  rw [mapped] at h ⊢
  split_ifs at h ⊢ with hc
  · omega
  · by_contra hsymbol
    exact hc ⟨h, by simpa using hsymbol⟩

/-- Only characters that symbols can have are written for a string that is well-formed, when the
others are mapped, also where the encoder gives up. -/
lemma encodeUTF8_symbols (cs : List Char) :
    ∀ ch ∈ (encodeUTF8 (cs.flatMap String.utf8EncodeChar) true).2,
      Mangle.isValidSymbolChar ch = true := by
  obtain ⟨w, hout, hw⟩ := encode_out (isValidUnicodeScalar_chars cs true)
  rw [encodeUTF8_chars, hout, basicText]
  refine List.forall_mem_append.2 ⟨List.forall_mem_append.2 ⟨?_, ?_⟩, fun ch hch =>
    isValidSymbolChar_of_digitIndex (hw ch hch)⟩
  · rw [List.forall_mem_map]
    intro c hc
    obtain ⟨hmem, hlt⟩ := List.mem_filter.1 hc
    obtain ⟨c, -, rfl⟩ := List.mem_map.1 hmem
    exact isValidSymbolChar_mapped (by simpa using hlt)
  · split
    · exact List.forall_mem_singleton.2 (by decide)
    · simp

end Punycode

end ICDump
