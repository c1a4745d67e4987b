/-
The characters of mangled names (`ManglingUtils.h`).

With Punycode, `mangleIdentifier` writes symbol characters only: numbers, letters for words, an `X`
for a digit, characters of identifiers that need no Punycode, and what `encodePunycodeUTF8` leaves
in its output, whether or not it succeeds.  An invariant of the search for words says that there are
letters enough, and one of the second loop that it copies nothing from behind the identifier.
-/
import ICDump.Swift.Demangling

namespace ICDump

open Punycode

namespace Mangle

/-- Only characters that symbols can have. -/
def Symbols (buffer : List UInt8) : Prop := ∀ ch ∈ buffer, isValidSymbolChar ch = true

variable {buffer : List UInt8} {ident : List UInt8}

lemma symbols_nil : Symbols [] := List.forall_mem_nil _

lemma Symbols.append {w : List UInt8} (h : Symbols buffer) (hw : Symbols w) :
    Symbols (buffer ++ w) := List.forall_mem_append.2 ⟨h, hw⟩

lemma Symbols.concat {ch : UInt8} (h : Symbols buffer) (hch : isValidSymbolChar ch = true) :
    Symbols (buffer ++ [ch]) := h.append (List.forall_mem_singleton.2 hch)

lemma symbols_decimal (n : ℕ) : Symbols (decimal n) := by
  rw [Symbols, decimal, List.forall_mem_map]
  intro c hc
  have hdigit :=
    (Demangler.isDigit_byte (Nat.isDigit_of_mem_toDigits (by decide) (by decide) hc)).1
  rw [isValidSymbolChar, hdigit]
  simp

lemma symbols_punycodeText {pcIdent : List UInt8} (h : Symbols pcIdent) :
    Symbols (punycodeText pcIdent) := by
  refine List.forall_mem_cons.2 ⟨rfl, List.forall_mem_cons.2 ⟨rfl,
    (symbols_decimal _).append (Symbols.append ?_ h)⟩⟩
  split
  · exact List.forall_mem_singleton.2 rfl
  · exact symbols_nil

/-- An identifier that needs no Punycode. -/
lemma symbols_of_plain (h : needsPunycodeEncoding ident = false) : Symbols ident := by
  intro ch hch
  rw [needsPunycodeEncoding, List.any_eq_false] at h
  simpa using h ch hch

/-! ### The search for words -/

/-- What is found of all words is found in the identifier. -/
lemma eachWord_induction {σ : Type} {found : ℕ → ℕ → σ → σ} {P : σ → Prop} {n : ℕ}
    (hfound : ∀ start len s, start + len ≤ n → P s → P (found start len s)) {pos : ℕ}
    {ts : List (List UInt8)} {s : σ} (hle : pos + ts.flatten.length ≤ n) (hs : P s) :
    P (eachWord found pos ts s) := by
  induction ts generalizing pos s with
  | nil => exact hs
  | cons t ts ih =>
      rw [List.flatten_cons, List.length_append] at hle
      refine ih (by omega) ?_
      split
      · exact hfound pos t.length s (by omega) hs
      · exact hs

lemma lookupWord_lt {word str : List UInt8} {words : List SubstitutionWord} {i j idx : ℕ}
    (h : lookupWord word str words i j = some idx) : idx < words.length := by
  obtain ⟨k, hk, rfl⟩ := Option.map_eq_some_iff.1 h
  obtain ⟨hlt, -⟩ := List.findIdx?_eq_some_iff_getElem.1 hk
  rw [List.length_drop, List.length_take] at hlt
  omega

/-- There is a letter for each word, and each replacement is in the identifier. -/
structure Search.Fits (ident : List UInt8) (s : Search) : Prop where
  room : s.words.length ≤ maxNumWords
  repls : ∀ repl ∈ s.substWordsInIdent, repl.stringPos ≤ ident.length ∧
    ∀ idx ∈ repl.wordIdx, idx < maxNumWords

lemma Search.Fits.found {s : Search} (h : s.Fits ident) (m : Mangler) {start len : ℕ}
    (hle : start + len ≤ ident.length) : (m.found ident start len s).Fits ident := by
  rw [Mangler.found]
  split
  · rename_i idx hidx
    refine ⟨h.room, List.forall_mem_append.2 ⟨h.repls, List.forall_mem_singleton.2
      ⟨by dsimp only; omega, fun idx' hidx' => ?_⟩⟩⟩
    obtain rfl := Option.some.inj hidx'
    rcases Option.or_eq_some_iff.1 hidx with hold | ⟨-, hnew⟩
    · exact (lookupWord_lt hold).trans_le h.room
    · exact (lookupWord_lt hnew).trans_le h.room
  · split
    · rename_i hnew
      refine ⟨?_, h.repls⟩
      rw [List.length_append]
      exact hnew.2
    · exact h

lemma fits_findWords (m : Mangler) (hroom : m.words.length ≤ maxNumWords) (ident : List UInt8) :
    (findWords (m.found ident) ident ⟨m.words, []⟩).Fits ident := by
  rw [findWords_eq]
  refine eachWord_induction (fun start len s hle hs => hs.found m hle) ?_
    ⟨hroom, List.forall_mem_nil _⟩
  rw [flatten_pieces, Nat.zero_add]

/-! ### The second loop -/

namespace Emission

/-- What was written is symbols, and there are no more words than letters. -/
structure Clean (e : Emission) : Prop where
  symbols : Symbols e.buffer
  room : e.words.length ≤ maxNumWords

variable {e : Emission}

lemma Clean.copyChar (h : e.Clean) (hident : Symbols ident) (first : Bool)
    (hpos : e.pos < ident.length) :
    (e.copyChar ident first).Clean ∧ (e.copyChar ident first).pos = e.pos + 1 := by
  have hch : isValidSymbolChar (ident.getD e.pos 0) = true := by
    rw [List.getD_eq_getElem _ _ hpos]
    exact hident _ (List.getElem_mem hpos)
  have hout : isValidSymbolChar (if first && isDigit (ident.getD e.pos 0) then byte 'X'
      else ident.getD e.pos 0) = true := by
    split
    · rfl
    · exact hch
  rw [Emission.copyChar]
  split
  · split
    · exact ⟨⟨h.symbols.concat hout, by rw [List.length_set]; exact h.room⟩, rfl⟩
    · exact ⟨⟨h.symbols.concat hout, h.room⟩, rfl⟩
  · exact ⟨⟨h.symbols.concat hout, h.room⟩, rfl⟩

lemma Clean.copy (h : e.Clean) (hident : Symbols ident) (first : Bool) {n : ℕ}
    (hpos : e.pos + n ≤ ident.length) : (Emission.copy ident n first e).Clean := by
  induction n generalizing e first with
  | zero => exact h
  | succ n ih =>
      obtain ⟨hclean, hpos'⟩ := h.copyChar hident first (by omega)
      exact ih hclean false (by omega)

lemma Clean.copyTo (h : e.Clean) (hident : Symbols ident) {stringPos : ℕ}
    (hpos : stringPos ≤ ident.length) : (e.copyTo ident stringPos).Clean := by
  rw [Emission.copyTo]
  split
  · have hlength : Clean
        { e with buffer := e.buffer ++ decimal (stringPos - e.pos) } :=
      ⟨h.symbols.append (symbols_decimal _), h.room⟩
    exact hlength.copy hident true (by dsimp only; omega)
  · exact h

/-- There is a letter for the word. -/
lemma Clean.refer (h : e.Clean) {idx : ℕ} (hidx : idx < maxNumWords) (last : Bool) :
    (e.refer ident idx last).Clean := by
  have hall : ∀ i < 26, isValidSymbolChar (.ofNat (i + 'A'.toNat)) = true ∧
    isValidSymbolChar (.ofNat (i + 'a'.toNat)) = true := by decide
  obtain ⟨hupper, hlower⟩ := hall idx hidx
  rw [Emission.refer]
  split
  · exact ⟨h.symbols.concat hlower, h.room⟩
  · refine ⟨h.symbols.append (List.forall_mem_cons.2 ⟨hupper, ?_⟩), h.room⟩
    split
    · exact List.forall_mem_singleton.2 rfl
    · exact symbols_nil

lemma Clean.run (h : e.Clean) (hident : Symbols ident) {repls : List WordReplacement}
    (hrepls : ∀ repl ∈ repls, repl.stringPos ≤ ident.length ∧
      ∀ idx ∈ repl.wordIdx, idx < maxNumWords) : (Emission.run ident repls e).Clean := by
  induction repls generalizing e with
  | nil => exact h
  | cons repl repls ih =>
      obtain ⟨⟨hpos, hidx⟩, hrepls'⟩ := List.forall_mem_cons.1 hrepls
      have hcopy := h.copyTo hident hpos
      rw [Emission.run]
      split
      · rename_i idx hrepl
        exact ih (hcopy.refer (hidx idx hrepl) _) hrepls'
      · exact ih hcopy hrepls'

end Emission

/-! ### Identifiers -/

/-- What is written of any string of characters is symbols, and there are letters enough for the
words. -/
lemma symbols_mangleIdentifier {m : Mangler} (hm : m.usePunycode = true)
    (hroom : m.words.length ≤ maxNumWords) (hbuffer : Symbols m.buffer) (cs : List Char) :
    (mangleIdentifier m (cs.flatMap String.utf8EncodeChar)).usePunycode = true ∧
      (mangleIdentifier m (cs.flatMap String.utf8EncodeChar)).words.length ≤ maxNumWords ∧
      Symbols (mangleIdentifier m (cs.flatMap String.utf8EncodeChar)).buffer := by
  cases hneeds : needsPunycodeEncoding (cs.flatMap String.utf8EncodeChar) with
  | true =>
      rw [mangleIdentifier_punycode (by rw [hm, hneeds]; rfl)]
      exact ⟨hm, hroom, hbuffer.append (symbols_punycodeText (encodeUTF8_symbols cs))⟩
  | false =>
      have hident := symbols_of_plain hneeds
      generalize cs.flatMap String.utf8EncodeChar = ident at hneeds hident
      have hfits := fits_findWords m hroom ident
      rw [mangleIdentifier, hm, hneeds]
      generalize findWords (m.found ident) ident ⟨m.words, []⟩ = s at hfits
      have hstart : Symbols (if s.substWordsInIdent = [] then m.buffer
          else m.buffer ++ [byte '0']) := by
        split
        · exact hbuffer
        · exact hbuffer.concat rfl
      have hrepls : ∀ repl ∈ s.substWordsInIdent ++ [(⟨ident.length, none⟩ : WordReplacement)],
          repl.stringPos ≤ ident.length ∧ ∀ idx ∈ repl.wordIdx, idx < maxNumWords :=
        List.forall_mem_append.2 ⟨hfits.repls, List.forall_mem_singleton.2 ⟨le_rfl, by simp⟩⟩
      have hrun := Emission.Clean.run (e := ⟨s.words, m.words.length, _, 0⟩) ⟨hstart, hfits.room⟩
        hident hrepls
      exact ⟨rfl, hrun.room, hrun.symbols⟩

/-- An overlong form is taken for the character that it stands for. -/
example : ¬ Symbols (mangleIdentifier ⟨true, [], []⟩ [0xC0, 0xA0]).buffer := by
  unfold Symbols
  decide

/-- **A name is made of symbol characters** when what is between its identifiers is, and the
identifiers need not be. -/
theorem Mangler.mangleAll_symbols {m : Mangler} (hm : m.usePunycode = true)
    (hroom : m.words.length ≤ maxNumWords) {items : List (List UInt8 × List UInt8)}
    (hidents : ∀ item ∈ items, ∃ cs : List Char, item.2 = cs.flatMap String.utf8EncodeChar)
    (hbefore : ∀ item ∈ items, ∀ ch ∈ item.1, isValidSymbolChar ch = true)
    (hbuffer : ∀ ch ∈ m.buffer, isValidSymbolChar ch = true) :
    ∀ ch ∈ (m.mangleAll items).buffer, isValidSymbolChar ch = true := by
  induction items generalizing m with
  | nil => exact hbuffer
  | cons item items ih =>
      obtain ⟨before, ident⟩ := item
      obtain ⟨⟨cs, hcs⟩, hidents'⟩ := List.forall_mem_cons.1 hidents
      obtain ⟨hbefore₁, hbefore'⟩ := List.forall_mem_cons.1 hbefore
      obtain rfl : ident = cs.flatMap String.utf8EncodeChar := hcs
      obtain ⟨hm', hroom', hbuffer'⟩ := symbols_mangleIdentifier
        (m := { m with buffer := m.buffer ++ before }) hm hroom
        (Symbols.append hbuffer hbefore₁) cs
      exact ih hm' hroom' hidents' hbefore' hbuffer'

/-- An identifier that starts with a digit, one with a space, and no identifier at all. -/
theorem Mangler.mangleAll_symbols_sample :
    (Mangler.mangleAll ⟨true, [], []⟩
      [(['$', 's'].map byte, ['1', 'a', 'B', 'c'].flatMap String.utf8EncodeChar),
        ([], ['a', ' ', 'ü'].flatMap String.utf8EncodeChar),
        (['C'].map byte, [].flatMap String.utf8EncodeChar)]).buffer.all isValidSymbolChar = true :=
  List.all_eq_true.2 <| Mangler.mangleAll_symbols rfl (Nat.zero_le _)
    (List.forall_mem_cons.2 ⟨⟨_, rfl⟩, List.forall_mem_cons.2 ⟨⟨_, rfl⟩,
      List.forall_mem_singleton.2 ⟨_, rfl⟩⟩⟩)
    (List.forall_mem_cons.2 ⟨List.all_eq_true.1 rfl, List.forall_mem_cons.2 ⟨List.forall_mem_nil _,
      List.forall_mem_singleton.2 (List.all_eq_true.1 rfl)⟩⟩)
    (List.forall_mem_nil _)

end Mangle

end ICDump
