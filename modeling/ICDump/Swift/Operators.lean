/-
Names of operators (`ManglingUtils.cpp`, `Remangler.cpp`, `Demangler.cpp`).

An operator is written as an identifier with a letter for each of its characters, and behind it an
`o` tells what kind of operator it is.  The demangler pushes the identifier, and pops it when it is
at the `o`.  What is no operator character has no letter, and is written as it is: a name with such
characters does not come back (`demangleOperatorIdentifier_iff`).

The nodes that are no names are a parameter.
-/
import ICDump.Swift.Demangling

namespace ICDump

namespace Mangle

/-! ### Mangling -/

/-- The cases of `translateOperatorChar`. -/
def operatorLetters : List (Char × Char) :=
  [('&', 'a'), ('@', 'c'), ('/', 'd'), ('=', 'e'), ('>', 'g'), ('<', 'l'), ('*', 'm'), ('!', 'n'),
    ('|', 'o'), ('+', 'p'), ('?', 'q'), ('%', 'r'), ('-', 's'), ('~', 't'), ('^', 'x'), ('.', 'z')]

/-- `translateOperatorChar`. -/
def translateOperatorChar (op : UInt8) : UInt8 :=
  ((operatorLetters.find? fun p => op == byte p.1).map fun p => byte p.2).getD op

/-- `translateOperator`. -/
def translateOperator (op : List UInt8) : List UInt8 := op.map translateOperatorChar

/-- The kinds of nodes that are operators. -/
inductive OperatorKind
  | infixOperator
  | prefixOperator
  | postfixOperator
deriving DecidableEq, Repr

/-- The letter behind the `o`. -/
def OperatorKind.letter : OperatorKind → UInt8
  | .infixOperator => byte 'i'
  | .prefixOperator => byte 'p'
  | .postfixOperator => byte 'P'

end Mangle

open Punycode Mangle

namespace Demangler

/-! ### Demangling -/

/-- The nodes of names, and those that other operators make. -/
inductive Node (ν : Type)
  | identifier (text : List UInt8)
  | operator (kind : OperatorKind) (text : List UInt8)
  | other (nd : ν)
deriving DecidableEq, Repr

/-- `op_char_table`. -/
def opCharTable : List Char :=
  ['&', ' ', '@', '/', '=', ' ', '>', ' ', ' ', ' ', ' ', '<', '*', '!', '|', '+', '?', '%', '-',
    '~', ' ', ' ', ' ', '^', ' ', '.']

/-- A character of the operator.  What is negative as a `signed char` stands for itself. -/
def demangleOperatorChar (c : UInt8) : Option UInt8 :=
  if 0x80 ≤ c then some c
  else if isLowerLetter c then
    let o := byte (opCharTable.getD (c.toNat - 'a'.toNat) ' ')
    if o = byte ' ' then none else some o
  else none

/-- The kind that the letter behind the `o` stands for. -/
def operatorKind (c : UInt8) : Option OperatorKind :=
  if c = byte 'i' then some .infixOperator
  else if c = byte 'p' then some .prefixOperator
  else if c = byte 'P' then some .postfixOperator
  else none

section

variable {ν : Type}

/-- `demangleOperatorIdentifier`, behind the `o`. -/
def demangleOperatorIdentifier (text : List UInt8) (nodeStack : List (Node ν)) :
    Option ((Node ν × List (Node ν)) × List UInt8) :=
  match nodeStack.getLast? with
  | some (.identifier ident) => do
      let opStr ← ident.mapM demangleOperatorChar
      let kind ← operatorKind (peekChar text)
      return ((.operator kind opStr, nodeStack.dropLast), text.tail)
  | _ => none

end

/-! ### The letters of an operator -/

/-- The characters that a mangled operator can have. -/
def isOperatorChar (c : UInt8) : Bool :=
  decide (0x80 ≤ c) || operatorLetters.any fun p => c == byte p.1

lemma forall_byte {P : UInt8 → Prop} (h : ∀ n < 256, P (.ofNat n)) (c : UInt8) : P c := by
  rw [← UInt8.ofNat_toNat (x := c)]
  exact h c.toNat c.toNat_lt

/-- A letter is read as the character that it was written for, and others are not. -/
lemma demangleOperatorChar_translate (c : UInt8) :
    demangleOperatorChar (translateOperatorChar c) = some c ↔ isOperatorChar c = true := by
  refine forall_byte (P := fun c => demangleOperatorChar (translateOperatorChar c) = some c ↔
    isOperatorChar c = true) ?_ c
  decide +kernel

/-- The letters are symbol characters and no digits. -/
lemma translateOperatorChar_spec {c : UInt8} (hc : isOperatorChar c = true) :
    Mangle.isDigit (translateOperatorChar c) = false ∧
      (isValidSymbolChar (translateOperatorChar c) = true ∨ 0x80 ≤ c) := by
  refine forall_byte (P := fun c => isOperatorChar c = true →
    Mangle.isDigit (translateOperatorChar c) = false ∧
      (isValidSymbolChar (translateOperatorChar c) = true ∨ 0x80 ≤ c)) ?_ c hc
  decide +kernel

lemma translateOperatorChar_high {c : UInt8} (hc : 0x80 ≤ c) : translateOperatorChar c = c := by
  refine forall_byte (P := fun c => 0x80 ≤ c → translateOperatorChar c = c) ?_ c hc
  decide +kernel

lemma mapM_translateOperator (op : List UInt8) :
    (translateOperator op).mapM demangleOperatorChar = some op ↔
      ∀ c ∈ op, isOperatorChar c = true := by
  induction op with
  | nil => exact ⟨fun _ => List.forall_mem_nil _, fun _ => rfl⟩
  | cons c op ih =>
      rw [List.forall_mem_cons, ← ih, ← demangleOperatorChar_translate c, translateOperator,
        List.map_cons, List.mapM_cons]
      constructor
      · intro h
        obtain ⟨c', hc, h⟩ := Option.bind_eq_some_iff.1 h
        obtain ⟨op', hop, h⟩ := Option.bind_eq_some_iff.1 h
        obtain ⟨rfl, rfl⟩ := List.cons.inj (Option.some.inj h)
        exact ⟨hc, hop⟩
      · rintro ⟨hc, hop⟩
        rw [translateOperator] at hop
        rw [hc, hop]
        rfl

lemma operatorKind_letter (kind : OperatorKind) : operatorKind kind.letter = some kind := by
  cases kind <;> rfl

/-! ### Operators as identifiers -/

/-- The names that operators can have. -/
structure IsOperatorName (usePunycode : Bool) (op : List UInt8) : Prop where
  ne_nil : op ≠ []
  chars : ∀ c ∈ op, isOperatorChar c = true
  encoded : usePunycode = true → (∃ c ∈ op, 0x80 ≤ c) →
    op.length < 1927 ∧ ∃ cs : List Char, op = cs.flatMap String.utf8EncodeChar

/-- `translateOperatorChar`, on characters. -/
def translateChar (c : Char) : Char :=
  if c.toNat < 0x80 then Char.ofNat (translateOperatorChar (byte c)).toNat else c

lemma le_ofNat {k : ℕ} (hk : 0x80 ≤ k) (hk' : k < 256) : 0x80 ≤ UInt8.ofNat k := by
  rw [UInt8.le_iff_toNat_le, UInt8.toNat_ofNat', Nat.mod_eq_of_lt hk']
  exact hk

/-- All bytes of a character behind `0x7F` are negative. -/
lemma le_utf8EncodeChar {c : Char} (hc : 0x80 ≤ c.toNat) :
    ∀ u ∈ String.utf8EncodeChar c, 0x80 ≤ u := by
  have hv : c.val.toNat = c.toNat := rfl
  have hmax := toNat_valid c
  rw [String.utf8EncodeChar]
  simp only [hv]
  rw [if_neg (by omega)]
  split_ifs <;>
    simp only [List.forall_mem_cons, List.not_mem_nil, false_implies, implies_true, and_true]
  · exact ⟨le_ofNat (by omega) (by omega), le_ofNat (by omega) (by omega)⟩
  · exact ⟨le_ofNat (by omega) (by omega), le_ofNat (by omega) (by omega),
      le_ofNat (by omega) (by omega)⟩
  · exact ⟨le_ofNat (by omega) (by omega), le_ofNat (by omega) (by omega),
      le_ofNat (by omega) (by omega), le_ofNat (by omega) (by omega)⟩

/-- Translated, a character is one character. -/
lemma translateOperator_utf8EncodeChar (c : Char) :
    translateOperator (String.utf8EncodeChar c) = String.utf8EncodeChar (translateChar c) := by
  by_cases hc : c.toNat < 0x80
  · have hall : ∀ n < 128, translateOperator (String.utf8EncodeChar (Char.ofNat n)) =
        String.utf8EncodeChar (translateChar (Char.ofNat n)) := by decide +kernel
    rw [← Char.ofNat_toNat c]
    exact hall c.toNat hc
  · rw [translateChar, if_neg hc, translateOperator]
    refine (List.map_congr_left fun u hu => ?_).trans (List.map_id _)
    exact translateOperatorChar_high (le_utf8EncodeChar (not_lt.1 hc) u hu)

lemma translateOperator_flatMap (cs : List Char) :
    translateOperator (cs.flatMap String.utf8EncodeChar) =
      (cs.map translateChar).flatMap String.utf8EncodeChar := by
  induction cs with
  | nil => rfl
  | cons c cs ih =>
      rw [List.flatMap_cons, List.map_cons, List.flatMap_cons, ← ih,
        ← translateOperator_utf8EncodeChar]
      exact List.map_append

/-- The letters of an operator can be an identifier. -/
lemma IsOperatorName.isIdentifier {usePunycode : Bool} {op : List UInt8}
    (h : IsOperatorName usePunycode op) : IsIdentifier usePunycode (translateOperator op) where
  ne_nil := fun heq => h.ne_nil (List.map_eq_nil_iff.1 heq)
  plain := fun _ => by
    obtain ⟨c, op, rfl⟩ := List.exists_cons_of_ne_nil h.ne_nil
    exact (translateOperatorChar_spec (h.chars c List.mem_cons_self)).1
  encoded := fun henc => by
    rw [Bool.and_eq_true, needsPunycodeEncoding, translateOperator, List.any_map,
      List.any_eq_true] at henc
    obtain ⟨huse, c, hc, hsymbol⟩ := henc
    -- only what is negative is no symbol character
    have hhigh : 0x80 ≤ c := by
      refine (translateOperatorChar_spec (h.chars c hc)).2.resolve_left fun hvalid => ?_
      rw [Function.comp_apply, hvalid] at hsymbol
      exact absurd hsymbol (by decide)
    obtain ⟨hlength, cs, rfl⟩ := h.encoded huse ⟨c, hc, hhigh⟩
    refine ⟨?_, cs.map translateChar, translateOperator_flatMap cs⟩
    rw [translateOperator, List.length_map]
    exact hlength

section

variable {ν : Type}

lemma demangleOperatorIdentifier_eq (kind : OperatorKind) (ident text : List UInt8)
    (nodeStack : List (Node ν)) :
    demangleOperatorIdentifier (kind.letter :: text) (nodeStack ++ [.identifier ident]) =
      (ident.mapM demangleOperatorChar).map fun op => ((.operator kind op, nodeStack), text) := by
  rw [demangleOperatorIdentifier, List.getLast?_concat, List.dropLast_concat]
  show ((ident.mapM demangleOperatorChar).bind fun op =>
    (operatorKind kind.letter).bind fun kind =>
      some ((Node.operator kind op, nodeStack), text)) = _
  rw [operatorKind_letter]
  exact (Option.map_eq_bind).symm

/-- **The name of an operator comes back** if all its characters are those of operators, and only
then. -/
theorem demangleOperatorIdentifier_iff (kind : OperatorKind) (op text : List UInt8)
    (nodeStack : List (Node ν)) :
    demangleOperatorIdentifier (kind.letter :: text)
        (nodeStack ++ [.identifier (translateOperator op)]) =
      some ((.operator kind op, nodeStack), text) ↔ ∀ c ∈ op, isOperatorChar c = true := by
  rw [demangleOperatorIdentifier_eq, Option.map_eq_some_iff, ← mapM_translateOperator]
  constructor
  · rintro ⟨op', hop, heq⟩
    simp only [Prod.mk.injEq, Node.operator.injEq, true_and, and_true] at heq
    rwa [heq] at hop
  · intro hop
    exact ⟨op, hop, rfl⟩

end

end Demangler

end ICDump
