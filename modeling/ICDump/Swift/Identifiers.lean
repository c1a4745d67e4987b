/-
Identifiers in mangled names (`ManglingUtils.h`, `Demangler.cpp`).

`mangleIdentifier` writes an identifier with its length.  Words in it that are in the name already
are left out, and letters stand for their numbers.  `demangleIdentifier` keeps the same list of
words while it reads.  Identifiers with characters that symbols cannot have are written in Punycode.

The mangler knows its words by where they are in its buffer, the demangler by their text.
-/
import Mathlib.Data.Nat.Notation
import ICDump.Swift.UTF8

namespace ICDump

open Punycode

namespace Mangle

/-- `isWordStart`. -/
def isWordStart (ch : UInt8) : Bool := !isDigit ch && ch != byte '_' && ch != 0

/-- `isWordEnd`. -/
def isWordEnd (ch prevCh : UInt8) : Bool :=
  if ch == byte '_' || ch == 0 then true else !isUpperLetter prevCh && isUpperLetter ch

/-- `needsPunycodeEncoding`. -/
def needsPunycodeEncoding (str : List UInt8) : Bool := str.any fun c => !isValidSymbolChar c

/-- `StringRef::substr`. -/
def substr (str : List UInt8) (start n : ℕ) : List UInt8 := (str.drop start).take n

/-- `MaxNumWords`, of the mangler and the demangler. -/
def maxNumWords : ℕ := 26

/-! ### The search for words -/

section

variable {σ : Type} (found : ℕ → ℕ → σ → σ)

/-- An iteration of the search, at `pos`: `found` is what is done with a word. -/
def visit (ch prevCh : UInt8) (pos : ℕ) (st : σ × Option ℕ) : σ × Option ℕ :=
  let st :=
    match st.2 with
    | some wordStartPos =>
        if isWordEnd ch prevCh then (found wordStartPos (pos - wordStartPos) st.1, none) else st
    | none => st
  if st.2 = none ∧ isWordStart ch then (st.1, some pos) else st

/-- The loop from `pos` on.  There is one iteration more than there are characters. -/
def findFrom (prevCh : UInt8) (pos : ℕ) (st : σ × Option ℕ) : List UInt8 → σ × Option ℕ
  | [] => visit found 0 prevCh pos st
  | ch :: ident => findFrom ch (pos + 1) (visit found ch prevCh pos st) ident

/-- The search for words, which `mangleIdentifier` and `demangleIdentifier` do alike. -/
def findWords (ident : List UInt8) (s : σ) : σ := (findFrom found 0 0 (s, none) ident).1

end

/-! ### Mangling -/

/-- `SubstitutionWord`. -/
structure SubstitutionWord where
  start : ℕ
  length : ℕ
deriving DecidableEq, Repr

/-- `WordReplacement`.  There is no index at the end of the identifier. -/
structure WordReplacement where
  stringPos : ℕ
  wordIdx : Option ℕ
deriving DecidableEq, Repr

/-- What `mangleIdentifier` uses of a mangler. -/
structure Mangler where
  usePunycode : Bool
  words : List SubstitutionWord
  buffer : List UInt8
deriving DecidableEq, Repr

/-- `lookupWord`. -/
def lookupWord (word str : List UInt8) (words : List SubstitutionWord) (fromWordIdx toWordIdx : ℕ) :
    Option ℕ :=
  (((words.take toWordIdx).drop fromWordIdx).findIdx? fun w =>
    substr str w.start w.length == word).map (· + fromWordIdx)

/-- The words and the replacements in the identifier that were found. -/
structure Search where
  words : List SubstitutionWord
  substWordsInIdent : List WordReplacement
deriving DecidableEq, Repr

/-- What `mangleIdentifier` does with a word. -/
def Mangler.found (m : Mangler) (ident : List UInt8) (wordStartPos wordLen : ℕ) (s : Search) :
    Search :=
  let word := substr ident wordStartPos wordLen
  let wordIdx := (lookupWord word m.buffer s.words 0 m.words.length).or
    (lookupWord word ident s.words m.words.length s.words.length)
  match wordIdx with
  | some idx =>
      { s with substWordsInIdent := s.substWordsInIdent ++ [⟨wordStartPos, some idx⟩] }
  | none =>
      if wordLen ≥ 2 ∧ s.words.length < maxNumWords then
        { s with words := s.words ++ [⟨wordStartPos, wordLen⟩] }
      else s

/-- What the second loop of `mangleIdentifier` goes on with. -/
structure Emission where
  words : List SubstitutionWord
  wordsInBuffer : ℕ
  buffer : List UInt8
  pos : ℕ
deriving DecidableEq, Repr

/-- `Buffer << n`. -/
def decimal (n : ℕ) : List UInt8 := (Nat.toDigits 10 n).map byte

/-- An iteration of the innermost loop: a character, and the start of a new word in the buffer. -/
def Emission.copyChar (ident : List UInt8) (first : Bool) (e : Emission) : Emission :=
  let ch := ident.getD e.pos 0
  let out := if first && isDigit ch then byte 'X' else ch
  match e.words[e.wordsInBuffer]? with
  | some w =>
      if w.start = e.pos then
        { words := e.words.set e.wordsInBuffer { w with start := e.buffer.length }
          wordsInBuffer := e.wordsInBuffer + 1
          buffer := e.buffer ++ [out]
          pos := e.pos + 1 }
      else { e with buffer := e.buffer ++ [out], pos := e.pos + 1 }
  | none => { e with buffer := e.buffer ++ [out], pos := e.pos + 1 }

/-- The innermost loop, of `n` iterations. -/
def Emission.copy (ident : List UInt8) : ℕ → Bool → Emission → Emission
  | 0, _, e => e
  | n + 1, first, e => Emission.copy ident n false (e.copyChar ident first)

/-- The sub-string up to the next replacement. -/
def Emission.copyTo (ident : List UInt8) (stringPos : ℕ) (e : Emission) : Emission :=
  if e.pos < stringPos then
    Emission.copy ident (stringPos - e.pos) true
      { e with buffer := e.buffer ++ decimal (stringPos - e.pos) }
  else e

/-- The letter of a replacement, which tells if it is the last one. -/
def Emission.refer (ident : List UInt8) (idx : ℕ) (last : Bool) (e : Emission) : Emission :=
  let pos := e.pos + (e.words.getD idx ⟨0, 0⟩).length
  if !last then { e with pos := pos, buffer := e.buffer ++ [.ofNat (idx + 'a'.toNat)] }
  else
    { e with
      pos := pos
      buffer := e.buffer ++ .ofNat (idx + 'A'.toNat) ::
        if pos = ident.length then [byte '0'] else [] }

/-- The second loop.  Behind the last word there is the end of the identifier only. -/
def Emission.run (ident : List UInt8) : List WordReplacement → Emission → Emission
  | [], e => e
  | repl :: rest, e =>
      let e := e.copyTo ident repl.stringPos
      match repl.wordIdx with
      | some idx => Emission.run ident rest (e.refer ident idx (decide (rest.length ≤ 1)))
      | none => Emission.run ident rest e

/-- `mangleIdentifier`. -/
def mangleIdentifier (m : Mangler) (ident : List UInt8) : Mangler :=
  if m.usePunycode && needsPunycodeEncoding ident then
    -- what is there is written, also if it is not all; behind an empty string there is a zero
    let pcIdent := (encodeUTF8 ident true).2
    let first := pcIdent.headD 0
    { m with
      buffer := m.buffer ++ byte '0' :: byte '0' :: decimal pcIdent.length ++
        (if isDigit first || first == byte '_' then [byte '_'] else []) ++ pcIdent }
  else
    let s := findWords (m.found ident) ident ⟨m.words, []⟩
    let buffer := if s.substWordsInIdent = [] then m.buffer else m.buffer ++ [byte '0']
    let e := Emission.run ident (s.substWordsInIdent ++ [⟨ident.length, none⟩])
      ⟨s.words, m.words.length, buffer, 0⟩
    { m with words := e.words, buffer := e.buffer }

end Mangle

open Mangle

/-! ### Demangling -/

/-- What `demangleIdentifier` uses of a demangler: what is left of the text, and the words. -/
structure Demangler where
  text : List UInt8
  words : List (List UInt8)
deriving DecidableEq, Repr

namespace Demangler

/-- `peekChar`. -/
def peekChar (text : List UInt8) : UInt8 := text.headD 0

/-- The loop of `demangleNatural`.  The `int` wraps around, and this is a failure only where it gets
smaller. -/
def naturalFrom (num : ℕ) : List UInt8 → Option (ℕ × List UInt8)
  | [] => some (num, [])
  | c :: text =>
      if Mangle.isDigit c then
        let newNum := (10 * num + (c.toNat - '0'.toNat)) % 2 ^ 32
        -- it is negative beyond `intMax`
        if newNum > intMax ∨ newNum < num then none else naturalFrom newNum text
      else some (num, c :: text)

/-- `demangleNatural`. -/
def demangleNatural (text : List UInt8) : Option (ℕ × List UInt8) :=
  if Mangle.isDigit (peekChar text) then naturalFrom 0 text else none

/-- What `demangleIdentifier` does with a word. -/
def found (slice : List UInt8) (wordStartPos wordLen : ℕ) (words : List (List UInt8)) :
    List (List UInt8) :=
  if wordLen ≥ 2 ∧ words.length < maxNumWords then words ++ [substr slice wordStartPos wordLen]
  else words

/-- What the loops of `demangleIdentifier` go on with. -/
structure Reading where
  hasWordSubsts : Bool
  identifier : List UInt8
  text : List UInt8
deriving DecidableEq, Repr

/-- The inner loop of `demangleIdentifier`: the letters that stand for words. -/
def substitutions (words : List (List UInt8)) : Bool → List UInt8 → List UInt8 → Option Reading
  | hasWordSubsts, identifier, [] => some ⟨hasWordSubsts, identifier, []⟩
  | hasWordSubsts, identifier, c :: text =>
      if hasWordSubsts && isLetter c then
        let wordIdx := if isLowerLetter c then c.toNat - 'a'.toNat else c.toNat - 'A'.toNat
        match words[wordIdx]? with
        | none => none
        | some slice => substitutions words (isLowerLetter c) (identifier ++ slice) text
      else some ⟨hasWordSubsts, identifier, c :: text⟩

/-- The number and the characters that it counts, in an iteration of the outer loop. -/
def readSlice (isPunycoded : Bool) (text : List UInt8) : Option (List UInt8 × List UInt8) :=
  match demangleNatural text with
  | none => none
  | some (numChars, text) =>
      let text := if isPunycoded && peekChar text == byte '_' then text.tail else text
      if numChars = 0 ∨ numChars > text.length then none
      else some (text.take numChars, text.drop numChars)

/-- The outer loop of `demangleIdentifier`, with a bound on its iterations. -/
def identifierFrom (isPunycoded : Bool) :
    ℕ → Bool → List UInt8 → Demangler → Option (List UInt8 × Demangler)
  | 0, _, _, _ => none
  | bound + 1, hasWordSubsts, identifier, d =>
      match substitutions d.words hasWordSubsts identifier d.text with
      | none => none
      | some r =>
          if peekChar r.text = byte '0' then some (r.identifier, ⟨r.text.tail, d.words⟩)
          else
            match readSlice isPunycoded r.text with
            | none => none
            | some (slice, text) =>
                if isPunycoded then
                  (decodePunycodeUTF8 slice).map fun punycodedString =>
                    (r.identifier ++ punycodedString, ⟨text, d.words⟩)
                else
                  let d := ⟨text, findWords (found slice) slice d.words⟩
                  if r.hasWordSubsts then
                    identifierFrom isPunycoded bound true (r.identifier ++ slice) d
                  else some (r.identifier ++ slice, d)

/-- What the loops of `demangleIdentifier` start with: `isPunycoded`, and what else they go on
with. -/
def start : List UInt8 → Bool × Reading
  | [] => (false, ⟨false, [], []⟩)
  | c :: text =>
      if c = byte '0' then
        if peekChar text = byte '0' then (true, ⟨false, [], text.tail⟩)
        else (false, ⟨true, [], text⟩)
      else (false, ⟨false, [], c :: text⟩)

/-- `demangleIdentifier`, the text of the node. -/
def demangleIdentifier (d : Demangler) : Option (List UInt8 × Demangler) :=
  if Mangle.isDigit (peekChar d.text) then
    let s := start d.text
    (identifierFrom s.1 d.text.length s.2.hasWordSubsts s.2.identifier
      ⟨s.2.text, d.words⟩).filter fun r => r.1 ≠ []
  else none

end Demangler

end ICDump
