/-
What `mangleIdentifier` writes (`ManglingUtils.h`).

An identifier is written as its plan says: the pieces between two words that are left out stand
together behind their length, and a letter stands for each of the words.  While the pieces are
copied, the places of the new words in the identifier turn into places in the buffer (`Knows`).
-/
import Mathlib.Data.List.Forall2
import ICDump.Swift.Words

namespace ICDump

open Punycode

namespace Mangle

/-! ### Known words -/

/-- The words are in the buffer, in this order. -/
def Knows (buffer : List UInt8) : List SubstitutionWord → List (List UInt8) → Prop :=
  List.Forall₂ fun w t => text buffer w = t ∧ w.start + w.length ≤ buffer.length

variable {buffer : List UInt8} {done pending : List SubstitutionWord}
  {known : List (List UInt8)}

lemma text_append {str : List UInt8} {w : SubstitutionWord} (h : w.start + w.length ≤ str.length)
    (str' : List UInt8) : text (str ++ str') w = text str w := by
  rw [text, text, substr, substr, List.drop_append_of_le_length (by omega),
    List.take_append_of_le_length (by rw [List.length_drop]; omega)]

lemma length_text {str : List UInt8} {w : SubstitutionWord} (h : w.start + w.length ≤ str.length) :
    (text str w).length = w.length := by
  rw [text, substr, List.length_take, List.length_drop]
  omega

lemma Knows.append (h : Knows buffer done known) (out : List UInt8) :
    Knows (buffer ++ out) done known := by
  refine List.Forall₂.imp (fun w t hw => ⟨?_, ?_⟩) h
  · rw [text_append hw.2, hw.1]
  · rw [List.length_append]
    exact hw.2.trans (Nat.le_add_right _ _)

lemma Knows.map_text (h : Knows buffer done known) : done.map (text buffer) = known := by
  induction h with
  | nil => rfl
  | cons hw _ ih => rw [List.map_cons, hw.1, ih]

lemma Knows.getD_length (h : Knows buffer done known) {i : ℕ} {t : List UInt8}
    (ht : known[i]? = some t) (pending : List SubstitutionWord) :
    ((done ++ pending).getD i ⟨0, 0⟩).length = t.length := by
  obtain ⟨hi, rfl⟩ := List.getElem?_eq_some_iff.1 ht
  have hi' : i < done.length := by rwa [List.Forall₂.length_eq h]
  obtain ⟨htext, hle⟩ := h.get hi' hi
  rw [List.getD_append _ _ _ _ hi', List.getD_eq_getElem _ _ hi']
  exact (length_text hle).symm.trans (congrArg List.length htext)

/-- Words that are copied are known where they are copied to. -/
lemma Knows.learned {lit : List (List UInt8)} (h : Knows buffer done known) :
    Knows (buffer ++ lit.flatten) (done ++ learnedAt buffer.length known lit)
      (lit.foldl learn known) := by
  induction lit generalizing buffer done known with
  | nil => simpa [learnedAt] using h
  | cons t lit ih =>
      have hstep : Knows (buffer ++ t) (done ++ if fits t ∧ known.length < maxNumWords then
          [⟨buffer.length, t.length⟩] else []) (learn known t) := by
        rw [learn, Dictionary.learn]
        split
        · refine List.rel_append (h.append t) (.cons ⟨?_, ?_⟩ .nil)
          · rw [text, substr, List.drop_left, List.take_length]
          · rw [List.length_append]
        · rw [List.append_nil]
          exact h.append t
      have hrest := ih hstep
      rw [List.length_append] at hrest
      rw [List.flatten_cons, learnedAt, List.foldl_cons, ← List.append_assoc, ← List.append_assoc]
      exact hrest

/-! ### Copying -/

/-- All words start from `pos` on. -/
def Behind (pos : ℕ) (ws : List SubstitutionWord) : Prop := ∀ w ∈ ws, pos ≤ w.start

lemma behind_learnedAt (pos : ℕ) (known lit : List (List UInt8)) :
    Behind pos (learnedAt pos known lit) := by
  induction lit generalizing pos known with
  | nil => exact fun w hw => absurd hw List.not_mem_nil
  | cons t lit ih =>
      rw [learnedAt]
      refine List.forall_mem_append.2 ⟨?_, fun w hw => ?_⟩
      · split
        · exact List.forall_mem_singleton.2 le_rfl
        · simp
      · exact (Nat.le_add_right _ _).trans (ih _ _ w hw)

lemma behind_newWords (pos : ℕ) (known : List (List UInt8)) (p : Plan (List UInt8)) :
    Behind pos (newWords pos known p) := by
  induction p generalizing pos known with
  | literal lit => exact behind_learnedAt pos known lit
  | refer lit i w rest ih =>
      refine List.forall_mem_append.2 ⟨behind_learnedAt pos known lit, fun w' hw' => ?_⟩
      have hle := ih _ _ w' hw'
      omega

variable {ident : List UInt8} {pos : ℕ} {first : Bool}

lemma getD_of_drop {c : UInt8} {cs : List UInt8} (h : ident.drop pos = c :: cs) :
    ident.getD pos 0 = c ∧ ident.drop (pos + 1) = cs := by
  have hget : ident[pos]? = some c := by rw [← List.head?_drop, h, List.head?_cons]
  refine ⟨by rw [List.getD_eq_getElem?_getD, hget, Option.getD_some], ?_⟩
  rw [← List.drop_drop, h, List.drop_one, List.tail_cons]

lemma getElem?_pending (done pending : List SubstitutionWord) :
    (done ++ pending)[done.length]? = pending.head? := by
  rw [List.getElem?_append_right le_rfl, Nat.sub_self, List.head?_eq_getElem?]

lemma not_digit {c : UInt8} (h : first = true → isDigit c = false) :
    ¬ (first && isDigit c) = true := by
  rw [Bool.and_eq_true]
  rintro ⟨hfirst, hdigit⟩
  exact absurd (hdigit.symm.trans (h hfirst)) (by decide)

/-- A character where no new word starts. -/
lemma copyChar_inside {c : UInt8} {cs : List UInt8} (hdrop : ident.drop pos = c :: cs)
    (hfirst : first = true → isDigit c = false) (hbehind : ∀ w ∈ pending.head?, pos + 1 ≤ w.start) :
    Emission.copyChar ident first ⟨done ++ pending, done.length, buffer, pos⟩ =
      ⟨done ++ pending, done.length, buffer ++ [c], pos + 1⟩ := by
  rw [Emission.copyChar]
  simp only [(getD_of_drop hdrop).1, if_neg (not_digit hfirst), getElem?_pending]
  cases hhead : pending.head? with
  | none => rfl
  | some w =>
      have hle := hbehind w hhead
      dsimp only
      rw [if_neg (by omega)]

/-- The character where a new word starts. -/
lemma copyChar_start {c : UInt8} {cs : List UInt8} {len : ℕ} (hdrop : ident.drop pos = c :: cs)
    (hfirst : first = true → isDigit c = false) :
    Emission.copyChar ident first ⟨done ++ ⟨pos, len⟩ :: pending, done.length, buffer, pos⟩ =
      ⟨(done ++ [⟨buffer.length, len⟩]) ++ pending, done.length + 1, buffer ++ [c], pos + 1⟩ := by
  rw [Emission.copyChar]
  simp only [(getD_of_drop hdrop).1, if_neg (not_digit hfirst), getElem?_pending, List.head?_cons]
  rw [if_pos trivial]
  simp

lemma copy_inside {cs rest : List UInt8} (hdrop : ident.drop pos = cs ++ rest)
    (hfirst : first = true → isDigit (cs.headD 0) = false)
    (hbehind : ∀ w ∈ pending.head?, pos + cs.length ≤ w.start) :
    Emission.copy ident cs.length first ⟨done ++ pending, done.length, buffer, pos⟩ =
      ⟨done ++ pending, done.length, buffer ++ cs, pos + cs.length⟩ := by
  induction cs generalizing pos first buffer with
  | nil => simp [Emission.copy]
  | cons c cs ih =>
      have hbehind' : ∀ w ∈ pending.head?, pos + 1 + cs.length ≤ w.start := fun w hw => by
        have hle := hbehind w hw
        rw [List.length_cons] at hle
        omega
      rw [List.length_cons, Emission.copy, copyChar_inside hdrop hfirst fun w hw => by
          have hle := hbehind' w hw
          omega,
        ih (getD_of_drop hdrop).2 (by simp) hbehind']
      simp [Nat.add_assoc, Nat.add_comm 1]

lemma copy_add (a b : ℕ) (e : Emission) (ha : a ≠ 0) : Emission.copy ident (a + b) first e =
    Emission.copy ident b false (Emission.copy ident a first e) := by
  induction a generalizing first e with
  | zero => exact absurd rfl ha
  | succ a ih =>
      rw [Nat.succ_add, Emission.copy, Emission.copy]
      by_cases ha' : a = 0
      · subst ha'
        rw [Nat.zero_add]
        rfl
      · exact ih _ ha'

lemma Behind.head? {ws : List SubstitutionWord} (h : Behind pos ws) :
    ∀ w ∈ ws.head?, pos ≤ w.start := fun w hw => h w (List.mem_of_mem_head? hw)

lemma Behind.append {ws ws' : List SubstitutionWord} (h : Behind pos ws) (h' : Behind pos ws') :
    Behind pos (ws ++ ws') := List.forall_mem_append.2 ⟨h, h'⟩

/-- A piece is copied as it is.  Where it is a new word, its place moves along. -/
lemma copy_piece {t rest : List UInt8} {new : Prop} [Decidable new]
    (hdrop : ident.drop pos = t ++ rest) (hne : t ≠ [])
    (hfirst : first = true → isDigit (t.headD 0) = false)
    (hbehind : Behind (pos + t.length) pending) :
    Emission.copy ident t.length first
        ⟨done ++ ((if new then [⟨pos, t.length⟩] else []) ++ pending), done.length, buffer, pos⟩ =
      ⟨(done ++ if new then [⟨buffer.length, t.length⟩] else []) ++ pending,
        (done ++ if new then [(⟨buffer.length, t.length⟩ : SubstitutionWord)] else []).length,
        buffer ++ t, pos + t.length⟩ := by
  obtain ⟨c, cs, rfl⟩ := List.exists_cons_of_ne_nil hne
  split
  · have hfirst' : first = true → isDigit c = false := hfirst
    have hbehind' : Behind (pos + 1 + cs.length) pending := fun w hw => by
      have hle := hbehind w hw
      rw [List.length_cons] at hle
      omega
    have hlength : (done ++ [(⟨buffer.length, (c :: cs).length⟩ : SubstitutionWord)]).length =
        done.length + 1 := by rw [List.length_append, List.length_singleton]
    rw [List.length_cons, Emission.copy, List.singleton_append, copyChar_start hdrop hfirst',
      ← List.length_cons, ← hlength,
      copy_inside (getD_of_drop hdrop).2 (by simp) hbehind'.head?]
    simp [Nat.add_assoc, Nat.add_comm 1]
  · rw [List.nil_append, copy_inside hdrop hfirst hbehind.head?, List.append_nil]

/-- Pieces are copied as they are, and the places of the new words in them move along. -/
lemma copy_pieces {lit : List (List UInt8)} {rest : List UInt8}
    (hdrop : ident.drop pos = lit.flatten ++ rest) (hne : ∀ t ∈ lit, t ≠ [])
    (hfirst : first = true → isDigit (lit.flatten.headD 0) = false)
    (hbehind : Behind (pos + lit.flatten.length) pending) :
    Emission.copy ident lit.flatten.length first
        ⟨done ++ (learnedAt pos known lit ++ pending), done.length, buffer, pos⟩ =
      ⟨done ++ learnedAt buffer.length known lit ++ pending,
        (done ++ learnedAt buffer.length known lit).length, buffer ++ lit.flatten,
        pos + lit.flatten.length⟩ := by
  induction lit generalizing pos first done known buffer with
  | nil => simp [Emission.copy, learnedAt]
  | cons t lit ih =>
      obtain ⟨ht, hne'⟩ := List.forall_mem_cons.1 hne
      rw [List.flatten_cons, List.append_assoc] at hdrop
      rw [List.flatten_cons, List.length_append, ← Nat.add_assoc] at hbehind
      have hdrop' : ident.drop (pos + t.length) = lit.flatten ++ rest := by
        rw [← List.drop_drop, hdrop, List.drop_left]
      have hfirst' : first = true → isDigit (t.headD 0) = false := by
        obtain ⟨c, cs, rfl⟩ := List.exists_cons_of_ne_nil ht
        exact hfirst
      have hlater : Behind (pos + t.length)
          (learnedAt (pos + t.length) (learn known t) lit ++ pending) :=
        (behind_learnedAt _ _ _).append fun w hw => (Nat.le_add_right _ _).trans (hbehind w hw)
      rw [List.flatten_cons, List.length_append,
        copy_add _ _ _ (List.length_pos_iff.2 ht).ne', learnedAt, List.append_assoc,
        copy_piece hdrop ht hfirst' hlater, ih hdrop' hne' (by simp) hbehind]
      simp only [learnedAt, List.length_append, List.append_assoc, Nat.add_assoc]

/-! ### Identifiers -/

/-- Pieces behind their length. -/
def literalText (lit : List (List UInt8)) : List UInt8 :=
  if lit.flatten = [] then [] else decimal lit.flatten.length ++ lit.flatten

/-- The letter for a word, before the rest of the identifier. -/
def letter (i : ℕ) : Plan (List UInt8) → List UInt8
  | .literal lit => .ofNat (i + 'A'.toNat) :: if lit.flatten = [] then [byte '0'] else []
  | .refer .. => [.ofNat (i + 'a'.toNat)]

/-- What is written of an identifier. -/
def written : Plan (List UInt8) → List UInt8
  | .literal lit => literalText lit
  | .refer lit i _ rest => literalText lit ++ (letter i rest ++ written rest)

lemma eq_nil_of_flatten {lit : List (List UInt8)} (hne : ∀ t ∈ lit, t ≠ [])
    (h : lit.flatten = []) : lit = [] := by
  cases lit with
  | nil => rfl
  | cons t lit => exact absurd (List.append_eq_nil_iff.1 h).1 (hne t List.mem_cons_self)

lemma copyTo_literal {lit : List (List UInt8)} {rest : List UInt8}
    (hdrop : ident.drop pos = lit.flatten ++ rest) (hne : ∀ t ∈ lit, t ≠ [])
    (hdigit : isDigit (lit.flatten.headD 0) = false)
    (hbehind : Behind (pos + lit.flatten.length) pending) (hknows : Knows buffer done known) :
    ∃ done', Emission.copyTo ident (pos + lit.flatten.length)
        ⟨done ++ (learnedAt pos known lit ++ pending), done.length, buffer, pos⟩ =
      ⟨done' ++ pending, done'.length, buffer ++ literalText lit, pos + lit.flatten.length⟩ ∧
        Knows (buffer ++ literalText lit) done' (lit.foldl learn known) := by
  rw [Emission.copyTo, literalText]
  by_cases hnil : lit.flatten = []
  · obtain rfl := eq_nil_of_flatten hne hnil
    exact ⟨done, by simp [learnedAt], by simpa using hknows⟩
  · have hlt : pos < pos + lit.flatten.length := by
      have hpos := List.length_pos_iff.2 hnil
      omega
    rw [if_neg hnil, if_pos hlt, Nat.add_sub_cancel_left]
    dsimp only
    rw [copy_pieces hdrop hne (fun _ => hdigit) hbehind]
    exact ⟨_, by rw [List.append_assoc buffer],
      by rw [← List.append_assoc]; exact (hknows.append _).learned⟩

/-- No digit follows a word. -/
lemma not_digit_of_isWordEnd {ch prevCh : UInt8} (h : isWordEnd ch prevCh = true) :
    isDigit ch = false := by
  have hall : ∀ n < 256, isDigit (.ofNat n) = true →
    (UInt8.ofNat n == byte '_' || UInt8.ofNat n == 0) = false ∧
      isUpperLetter (.ofNat n) = false := by decide +kernel
  rw [← UInt8.ofNat_toNat (x := ch)] at h ⊢
  by_contra hdigit
  obtain ⟨hother, hupper⟩ := hall ch.toNat ch.toNat_lt (by simpa using hdigit)
  rw [isWordEnd, if_neg (by simpa using hother), hupper, Bool.and_false] at h
  exact absurd h (by decide)

/-- What follows a word that is left out does not start with a digit. -/
lemma Cut.not_digit {w : List UInt8} {ts : List (List UInt8)} (h : Cut (w :: ts))
    (hw : fits w = true) : isDigit (ts.flatten.headD 0) = false := by
  rw [fits, Bool.and_eq_true] at hw
  rw [← h.tail.headD_flatten]
  exact not_digit_of_isWordEnd (h.ends_headD hw.1)

lemma not_digit_left {ts ts' : List (List UInt8)}
    (h : isDigit ((ts ++ ts').flatten.headD 0) = false) : isDigit (ts.flatten.headD 0) = false := by
  rw [List.flatten_append] at h
  cases hflatten : ts.flatten with
  | nil => rfl
  | cons c cs =>
      rw [hflatten] at h
      exact h

/-- Up to the end of the identifier there is what is left of it. -/
lemma copyTo_end {l : List UInt8} {words : List SubstitutionWord} {k : ℕ}
    (hdrop : ident.drop pos = l) : Emission.copyTo ident ident.length ⟨words, k, buffer, pos⟩ =
      Emission.copyTo ident (pos + l.length) ⟨words, k, buffer, pos⟩ := by
  have hlength : l.length = ident.length - pos := by rw [← hdrop, List.length_drop]
  rw [Emission.copyTo, Emission.copyTo]
  by_cases hlt : pos < ident.length
  · have heq : pos + l.length = ident.length := by omega
    rw [heq]
  · rw [if_neg hlt, if_neg (by dsimp only; omega)]

/-- The letter for a word tells if it is the last one. -/
lemma refer_eq {p : Plan (List UInt8)} {words : List SubstitutionWord} {i k len : ℕ}
    (hlen : (words.getD i ⟨0, 0⟩).length = len) (hle : pos + len ≤ ident.length)
    (hdrop : ident.drop (pos + len) = p.words.flatten) :
    Emission.refer ident i
        (decide ((replacements (pos + len) p ++
          [(⟨ident.length, none⟩ : WordReplacement)]).length ≤ 1))
        ⟨words, k, buffer, pos⟩ = ⟨words, k, buffer ++ letter i p, pos + len⟩ := by
  rw [Emission.refer]
  dsimp only
  rw [hlen]
  cases p with
  | refer lit j w rest => simp [replacements, letter]
  | literal lit =>
      have hend : pos + len = ident.length ↔ lit.flatten = [] := by
        have hlength := congrArg List.length hdrop
        rw [List.length_drop] at hlength
        rw [← List.length_eq_zero_iff]
        change ident.length - (pos + len) = lit.flatten.length at hlength
        omega
      simp only [replacements, letter, hend]
      rfl

/-- **The second loop writes the identifier as its plan says.** -/
lemma run_plan {p : Plan (List UInt8)} (hdrop : ident.drop pos = p.words.flatten)
    (hcut : Cut p.words) (hdigit : isDigit (p.words.flatten.headD 0) = false)
    (hknows : Knows buffer done known) (hsound : Dictionary.Sound fits maxNumWords known p)
    (hfits : ∀ w ∈ known, fits w = true) :
    ∃ e, Emission.run ident (replacements pos p ++ [⟨ident.length, none⟩])
        ⟨done ++ newWords pos known p, done.length, buffer, pos⟩ = e ∧
      e.buffer = buffer ++ written p ∧
        Knows e.buffer e.words (Dictionary.after fits maxNumWords known p) := by
  induction p generalizing pos buffer done known with
  | literal lit =>
      replace hdrop : ident.drop pos = lit.flatten := hdrop
      have hdrop' : ident.drop pos = lit.flatten ++ [] := by rw [hdrop, List.append_nil]
      have hbehind : Behind (pos + lit.flatten.length) [] := fun w hw => absurd hw List.not_mem_nil
      obtain ⟨done', hcopy, hknows'⟩ :=
        copyTo_literal hdrop' hcut.ne_nil hdigit hbehind hknows
      rw [List.append_nil, ← copyTo_end hdrop, List.append_nil] at hcopy
      exact ⟨_, hcopy, rfl, hknows'⟩
  | refer lit i w rest ih =>
      replace hdrop : ident.drop pos = lit.flatten ++ (w ++ rest.words.flatten) := by
        rw [hdrop, Plan.words, List.flatten_append, List.flatten_cons]
      obtain ⟨hi, hsound'⟩ := hsound
      have hcut' : Cut (w :: rest.words) := Cut.right hcut
      have hfits' : ∀ v ∈ lit.foldl learn known, fits v = true :=
        Dictionary.forall_mem_foldl_learn hfits lit
      have hw : fits w = true := hfits' w (List.mem_of_getElem? hi)
      have hlit : isDigit (lit.flatten.headD 0) = false := not_digit_left hdigit
      have hdropRest : ident.drop (pos + lit.flatten.length + w.length) = rest.words.flatten := by
        rw [← List.drop_drop, ← List.drop_drop, hdrop, List.drop_left, List.drop_left]
      have hlength : pos + lit.flatten.length + w.length ≤ ident.length := by
        have hlength := congrArg List.length hdrop
        have hne := (hcut'.ne_nil w List.mem_cons_self)
        have hpos := List.length_pos_iff.2 hne
        rw [List.length_drop, List.length_append, List.length_append] at hlength
        omega
      obtain ⟨done', hcopy, hknows'⟩ := copyTo_literal hdrop (Cut.left hcut).ne_nil hlit
        (fun w' hw' => (Nat.le_add_right _ _).trans (behind_newWords _ _ rest w' hw')) hknows
      obtain ⟨e, hrun, hbuffer, hknows''⟩ := ih hdropRest hcut'.tail (hcut'.not_digit hw)
        (hknows'.append (letter i rest)) hsound' hfits'
      refine ⟨e, ?_, ?_, hknows''⟩
      · rw [replacements, List.cons_append, Emission.run]
        dsimp only
        rw [newWords, hcopy, refer_eq (hknows'.getD_length hi _) hlength hdropRest]
        exact hrun
      · rw [hbuffer, written, List.append_assoc, List.append_assoc]

/-- What `mangleIdentifier` writes of an identifier without other characters. -/
def identifierText : Plan (List UInt8) → List UInt8
  | .literal lit => written (.literal lit)
  | .refer lit i w rest => byte '0' :: written (.refer lit i w rest)

lemma mangleIdentifier_plain {m : Mangler}
    (hplain : (m.usePunycode && needsPunycodeEncoding ident) = false)
    (hdigit : isDigit (ident.headD 0) = false) (hknows : Knows m.buffer m.words known)
    (hfits : ∀ w ∈ known, fits w = true) :
    (mangleIdentifier m ident).usePunycode = m.usePunycode ∧
      (mangleIdentifier m ident).buffer =
        m.buffer ++ identifierText (plan known (pieces ident)) ∧
      Knows (mangleIdentifier m ident).buffer (mangleIdentifier m ident).words
        (Dictionary.after fits maxNumWords known (plan known (pieces ident))) := by
  obtain ⟨hwords, hsound⟩ : (plan known (pieces ident)).words = pieces ident ∧
      Dictionary.Sound fits maxNumWords known (plan known (pieces ident)) :=
    Dictionary.write_spec known (pieces ident)
  have hflatten := flatten_pieces ident
  have hcut := cut_pieces ident
  rw [mangleIdentifier, hplain, findWords_mangler hknows.map_text hfits]
  generalize plan known (pieces ident) = p at hwords hsound
  rw [← hwords] at hflatten hcut
  have hdrop : ident.drop 0 = p.words.flatten := hflatten.symm
  rw [← hflatten] at hdigit
  cases p with
  | literal lit =>
      obtain ⟨e, hrun, hbuffer, hknows'⟩ := run_plan hdrop hcut hdigit hknows hsound hfits
      refine ⟨rfl, ?_, ?_⟩
      · rw [identifierText, ← hbuffer, ← hrun]
        rfl
      · rw [← hrun] at hknows'
        exact hknows'
  | refer lit i w rest =>
      obtain ⟨e, hrun, hbuffer, hknows'⟩ :=
        run_plan hdrop hcut hdigit (hknows.append [byte '0']) hsound hfits
      refine ⟨rfl, ?_, ?_⟩
      · rw [List.append_assoc, List.singleton_append] at hbuffer
        rw [identifierText, ← hbuffer, ← hrun]
        rfl
      · rw [← hrun] at hknows'
        exact hknows'

/-- What `mangleIdentifier` writes of an identifier in Punycode. -/
def punycodeText (pcIdent : List UInt8) : List UInt8 :=
  byte '0' :: byte '0' :: (decimal pcIdent.length ++
    ((if isDigit (pcIdent.headD 0) || pcIdent.headD 0 == byte '_' then [byte '_'] else []) ++
      pcIdent))

lemma mangleIdentifier_punycode {m : Mangler}
    (hencoded : (m.usePunycode && needsPunycodeEncoding ident) = true) :
    mangleIdentifier m ident =
      { m with buffer := m.buffer ++ punycodeText (encodeUTF8 ident true).2 } := by
  rw [mangleIdentifier, if_pos hencoded, punycodeText]
  simp

end Mangle

end ICDump
