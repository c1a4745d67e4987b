/-
The words of an identifier (`ManglingUtils.h`).

The search for words cuts an identifier into words and single characters.  Where a word ends depends
on the characters next to that place only.  So a part of an identifier that starts and ends between
two of these pieces is cut in the same way, and the demangler, which sees such parts, finds the
words that the mangler has found in the whole.
-/
import Mathlib.Data.List.Chain
import ICDump.Library.Dictionary
import ICDump.Swift.Identifiers

namespace ICDump

namespace Mangle

/-- A piece of an identifier that is a word. -/
def isWord (t : List UInt8) : Bool := isWordStart (t.headD 0)

/-- The pieces of an identifier, behind the characters `cur` of a word. -/
def piecesFrom (cur : List UInt8) : List UInt8 → List (List UInt8)
  | [] => if cur = [] then [] else [cur]
  | ch :: l =>
      if cur ≠ [] ∧ isWordEnd ch (cur.getLastD 0) = false then piecesFrom (cur ++ [ch]) l
      else (if cur = [] then [] else [cur]) ++
        if isWordStart ch then piecesFrom [ch] l else [ch] :: piecesFrom [] l

/-- The pieces of an identifier. -/
def pieces (ident : List UInt8) : List (List UInt8) := piecesFrom [] ident

lemma flatten_piecesFrom (cur l : List UInt8) : (piecesFrom cur l).flatten = cur ++ l := by
  induction l generalizing cur with
  | nil =>
      rw [piecesFrom]
      split
      · simp_all
      · simp
  | cons ch l ih =>
      rw [piecesFrom]
      split
      · rw [ih, List.append_assoc, List.singleton_append]
      · have hcur : (if cur = [] then [] else [cur]).flatten = cur := by
          split
          · simp_all
          · simp
        rw [List.flatten_append, hcur]
        congr 1
        split
        · rw [ih, List.singleton_append]
        · rw [List.flatten_cons, ih, List.nil_append, List.singleton_append]

lemma flatten_pieces (ident : List UInt8) : (pieces ident).flatten = ident := by
  rw [pieces, flatten_piecesFrom, List.nil_append]

/-! ### What the search finds -/

section

variable {σ : Type} {found : ℕ → ℕ → σ → σ}

/-- All words are passed on, in order. -/
def eachWord (found : ℕ → ℕ → σ → σ) : ℕ → List (List UInt8) → σ → σ
  | _, [], s => s
  | pos, t :: ts, s =>
      eachWord found (pos + t.length) ts (if isWord t then found pos t.length s else s)

/-- Outside of words, one may start. -/
lemma visit_outside (ch prevCh : UInt8) (pos : ℕ) (s : σ) :
    visit found ch prevCh pos (s, none) =
      if isWordStart ch then (s, some pos) else (s, none) := by
  simp [visit]

/-- At the end of a word, the word is found, and the next one may start. -/
lemma visit_end {ch prevCh : UInt8} (hend : isWordEnd ch prevCh = true) (start len : ℕ) (s : σ) :
    visit found ch prevCh (start + len) (s, some start) =
      if isWordStart ch then (found start len s, some (start + len))
      else (found start len s, none) := by
  rw [visit]
  simp only [hend, if_true, Nat.add_sub_cancel_left]
  split <;> simp_all

/-- Inside a word, the search goes on. -/
lemma visit_inside {ch prevCh : UInt8} (hend : isWordEnd ch prevCh = false) (start pos : ℕ)
    (s : σ) : visit found ch prevCh pos (s, some start) = (s, some start) := by
  rw [visit]
  simp only [hend]
  rfl

lemma isWord_append {t : List UInt8} (ht : t ≠ []) (t' : List UInt8) :
    isWord (t ++ t') = isWord t := by
  obtain ⟨c, t, rfl⟩ := List.exists_cons_of_ne_nil ht
  rfl

/-- The search has seen the start of a word, or is in none. -/
lemma findFrom_eq (prevCh : UInt8) (start : ℕ) (cur l : List UInt8) (s : σ)
    (hprev : cur ≠ [] → prevCh = cur.getLastD 0) (hcur : cur ≠ [] → isWord cur = true) :
    (findFrom found prevCh (start + cur.length) (s, if cur = [] then none else some start) l).1 =
      eachWord found start (piecesFrom cur l) s := by
  have hstart : isWordStart 0 = false := rfl
  induction l generalizing prevCh start cur s with
  | nil =>
      have hend : isWordEnd 0 prevCh = true := rfl
      rw [findFrom, piecesFrom]
      by_cases h : cur = []
      · subst h
        rfl
      · simp [visit_end hend, h, hstart, eachWord, hcur h]
  | cons ch l ih =>
      -- behind a word, or outside one
      have hnext : ∀ (pos : ℕ) (s : σ), (findFrom found ch (pos + 1)
          (if isWordStart ch then (s, some pos) else (s, none)) l).1 =
          eachWord found pos (if isWordStart ch then piecesFrom [ch] l
            else [ch] :: piecesFrom [] l) s := by
        intro pos s
        split
        · rename_i hch
          exact ih ch pos [ch] s (fun _ => rfl) fun _ => hch
        · rename_i hch
          have hword : isWord [ch] = false := by simpa [isWord] using hch
          rw [eachWord, hword]
          exact ih ch (pos + 1) [] s (fun h => absurd rfl h) fun h => absurd rfl h
      rw [findFrom, piecesFrom]
      by_cases h : cur = []
      · subst h
        simpa [visit_outside] using hnext start s
      · obtain rfl := hprev h
        rw [if_neg h]
        by_cases hend : isWordEnd ch (cur.getLastD 0) = true
        · have hends : ¬ (cur ≠ [] ∧ isWordEnd ch (cur.getLastD 0) = false) := fun hc =>
            absurd (hend.symm.trans hc.2) (by decide)
          rw [visit_end hend, if_neg hends, if_neg h, List.singleton_append]
          show _ = eachWord found (start + cur.length) _ (if isWord cur then _ else s)
          rw [if_pos (hcur h)]
          exact hnext _ _
        · rw [Bool.not_eq_true] at hend
          have hword : isWord (cur ++ [ch]) = true := by rw [isWord_append h, hcur h]
          rw [visit_inside hend, if_pos ⟨h, hend⟩]
          have hih := ih ch start (cur ++ [ch]) s (fun _ => by simp) fun _ => hword
          rwa [List.length_append, ← Nat.add_assoc, if_neg (by simp)] at hih

lemma findWords_eq (ident : List UInt8) (s : σ) :
    findWords found ident s = eachWord found 0 (pieces ident) s :=
  findFrom_eq 0 0 [] ident s (fun h => absurd rfl h) fun h => absurd rfl h

end

/-! ### Parts of an identifier -/

/-- A word, or a character that does not start one. -/
structure IsPiece (t : List UInt8) : Prop where
  ne_nil : t ≠ []
  length : isWord t = false → t.length = 1
  inner : isWord t = true → t.IsChain fun prevCh ch => isWordEnd ch prevCh = false

/-- What is behind a piece does not belong to it. -/
def Ends (t t' : List UInt8) : Prop :=
  isWord t = true → isWordEnd (t'.headD 0) (t.getLastD 0) = true

/-- The pieces are those of an identifier. -/
structure Cut (ts : List (List UInt8)) : Prop where
  isPiece : ∀ t ∈ ts, IsPiece t
  ends : ts.IsChain Ends

lemma Cut.left {ts ts' : List (List UInt8)} (h : Cut (ts ++ ts')) : Cut ts :=
  ⟨fun t ht => h.isPiece t (List.mem_append_left ts' ht), h.ends.left_of_append⟩

lemma Cut.right {ts ts' : List (List UInt8)} (h : Cut (ts ++ ts')) : Cut ts' :=
  ⟨fun t ht => h.isPiece t (List.mem_append_right ts ht), h.ends.right_of_append⟩

lemma Cut.tail {t : List UInt8} {ts : List (List UInt8)} (h : Cut (t :: ts)) : Cut ts :=
  ⟨fun t' ht => h.isPiece t' (List.mem_cons_of_mem t ht), h.ends.tail⟩

lemma Cut.ne_nil {ts : List (List UInt8)} (h : Cut ts) : ∀ t ∈ ts, t ≠ [] :=
  fun t ht => (h.isPiece t ht).ne_nil

lemma isPiece_singleton (ch : UInt8) : IsPiece [ch] :=
  ⟨List.cons_ne_nil _ _, fun _ => rfl, fun _ => .singleton ch⟩

lemma Cut.cons {t : List UInt8} {ts : List (List UInt8)} (ht : IsPiece t) (hts : Cut ts)
    (hends : Ends t (ts.headD [])) : Cut (t :: ts) := by
  refine ⟨List.forall_mem_cons.2 ⟨ht, hts.isPiece⟩, hts.ends.cons fun t' ht' => ?_⟩
  rwa [List.headD_eq_head?_getD, Option.mem_def.1 ht'] at hends

/-- The first piece starts as the identifier does. -/
lemma Cut.headD_flatten {ts : List (List UInt8)} (h : Cut ts) :
    (ts.headD []).headD 0 = ts.flatten.headD 0 := by
  cases ts with
  | nil => rfl
  | cons t ts =>
      obtain ⟨c, t, rfl⟩ := List.exists_cons_of_ne_nil (h.isPiece t List.mem_cons_self).ne_nil
      rfl

lemma IsPiece.concat {t : List UInt8} {ch : UInt8} (ht : IsPiece t) (hword : isWord t = true)
    (hch : isWordEnd ch (t.getLastD 0) = false) :
    IsPiece (t ++ [ch]) ∧ isWord (t ++ [ch]) = true := by
  obtain ⟨c, t, rfl⟩ := List.exists_cons_of_ne_nil ht.ne_nil
  have hword' : isWord (c :: t ++ [ch]) = true := hword
  refine ⟨⟨by simp, fun h => absurd (hword'.symm.trans h) (by decide), fun _ => ?_⟩, hword'⟩
  refine (ht.inner hword).append (.singleton ch) fun x hx y hy => ?_
  obtain rfl := Option.some.inj hy
  rw [List.getLastD_eq_getLast?, Option.mem_def.1 hx] at hch
  exact hch

lemma cut_piecesFrom {cur l : List UInt8} (hcur : cur ≠ [] → IsPiece cur ∧ isWord cur = true) :
    Cut (piecesFrom cur l) := by
  induction l generalizing cur with
  | nil =>
      rw [piecesFrom]
      split
      · exact ⟨by simp, .nil⟩
      · rename_i h
        exact ⟨List.forall_mem_singleton.2 (hcur h).1, .singleton cur⟩
  | cons ch l ih =>
      have hnext : Cut (if isWordStart ch then piecesFrom [ch] l else [ch] :: piecesFrom [] l) := by
        split
        · rename_i hch
          exact ih fun _ => ⟨isPiece_singleton ch, hch⟩
        · rename_i hch
          exact .cons (isPiece_singleton ch) (ih fun h => absurd rfl h) fun h => absurd h hch
      rw [piecesFrom]
      by_cases h : cur = []
      · rw [if_neg fun hc => hc.1 h, if_pos h, List.nil_append]
        exact hnext
      · obtain ⟨hpiece, hword⟩ := hcur h
        split
        · rename_i hc
          exact ih fun _ => hpiece.concat hword hc.2
        · rename_i hc
          rw [List.singleton_append]
          refine .cons hpiece hnext fun _ => ?_
          rw [hnext.headD_flatten]
          have hflatten : (if isWordStart ch then piecesFrom [ch] l
              else [ch] :: piecesFrom [] l).flatten = ch :: l := by
            split
            · rw [flatten_piecesFrom, List.singleton_append]
            · rw [List.flatten_cons, flatten_piecesFrom, List.nil_append, List.singleton_append]
          rw [hflatten]
          simpa [h] using hc

lemma cut_pieces (ident : List UInt8) : Cut (pieces ident) := cut_piecesFrom fun h => absurd rfl h

/-- A word goes on as long as it does not end. -/
lemma piecesFrom_append {cur w rest : List UInt8} (hcur : cur ≠ [])
    (hw : (cur ++ w).IsChain fun prevCh ch => isWordEnd ch prevCh = false) :
    piecesFrom cur (w ++ rest) = piecesFrom (cur ++ w) rest := by
  induction w generalizing cur with
  | nil => rw [List.nil_append, List.append_nil]
  | cons ch w ih =>
      have hch : isWordEnd ch (cur.getLastD 0) = false := by
        rw [List.getLastD_eq_getLast?, List.getLast?_eq_some_getLast hcur]
        exact hw.rel_getLast_head_of_append hcur (List.cons_ne_nil ch w)
      rw [List.cons_append, piecesFrom, if_pos ⟨hcur, hch⟩, ih (by simp) (by simpa using hw),
        List.append_assoc, List.singleton_append]

/-- Where a word ends, the search starts again. -/
lemma piecesFrom_end {cur l : List UInt8} (hcur : cur ≠ [])
    (hend : isWordEnd (l.headD 0) (cur.getLastD 0) = true) :
    piecesFrom cur l = cur :: piecesFrom [] l := by
  cases l with
  | nil => rw [piecesFrom, piecesFrom, if_neg hcur, if_pos rfl]
  | cons ch l =>
      have hend' : isWordEnd ch (cur.getLastD 0) = true := hend
      have hnil : piecesFrom [] (ch :: l) =
          if isWordStart ch then piecesFrom [ch] l else [ch] :: piecesFrom [] l := rfl
      rw [hnil, piecesFrom, if_neg fun h => absurd (hend'.symm.trans h.2) (by decide), if_neg hcur,
        List.singleton_append]

lemma Cut.ends_headD {t : List UInt8} {ts : List (List UInt8)} (h : Cut (t :: ts)) :
    Ends t (ts.headD []) := by
  cases ts with
  | nil => exact fun _ => rfl
  | cons t' ts => exact (List.isChain_cons_cons.1 h.ends).1

/-- **The pieces of a part of an identifier are part of its pieces.** -/
lemma Cut.pieces_flatten {ts : List (List UInt8)} (h : Cut ts) : pieces ts.flatten = ts := by
  induction ts with
  | nil => rfl
  | cons t ts ih =>
      have hts : Cut ts := h.tail
      have ht := h.isPiece t List.mem_cons_self
      have hpieces : piecesFrom [] ts.flatten = ts := ih hts
      by_cases hword : isWord t = true
      · obtain ⟨c, w, rfl⟩ := List.exists_cons_of_ne_nil ht.ne_nil
        have hc : isWordStart c = true := hword
        have hcons : piecesFrom [] (c :: (w ++ ts.flatten)) = piecesFrom [c] (w ++ ts.flatten) := by
          rw [piecesFrom, if_neg fun h => h.1 rfl, if_pos rfl, if_pos hc, List.nil_append]
        rw [pieces, List.flatten_cons, List.cons_append, hcons,
          piecesFrom_append (List.cons_ne_nil c []) (ht.inner hword), List.singleton_append]
        have hends := h.ends_headD hword
        rw [hts.headD_flatten] at hends
        rw [piecesFrom_end (List.cons_ne_nil c w) hends, hpieces]
      · rw [Bool.not_eq_true] at hword
        obtain ⟨c, rfl⟩ := List.length_eq_one_iff.1 (ht.length hword)
        have hc : isWordStart c = false := hword
        rw [pieces, List.flatten_cons, List.singleton_append, piecesFrom,
          if_neg fun h => h.1 rfl, if_pos rfl, if_neg (by simp [hc]), List.nil_append, hpieces]

/-! ### What the demangler learns -/

/-- The words that are worth a number. -/
def fits (t : List UInt8) : Bool := isWord t && decide (2 ≤ t.length)

/-- The words that are known behind a piece. -/
abbrev learn : List (List UInt8) → List UInt8 → List (List UInt8) :=
  Dictionary.learn fits maxNumWords

lemma substr_of_drop {l t : List UInt8} {rest : List (List UInt8)} {pos : ℕ}
    (h : l.drop pos = (t :: rest).flatten) :
    substr l pos t.length = t ∧ l.drop (pos + t.length) = rest.flatten := by
  rw [substr, ← List.drop_drop, h, List.flatten_cons]
  exact ⟨List.take_left, List.drop_left⟩

lemma eachWord_found {slice : List UInt8} {pos : ℕ} {ts known : List (List UInt8)}
    (h : slice.drop pos = ts.flatten) :
    eachWord (Demangler.found slice) pos ts known = ts.foldl learn known := by
  induction ts generalizing pos known with
  | nil => rfl
  | cons t ts ih =>
      obtain ⟨hsubstr, hdrop⟩ := substr_of_drop h
      have hlearn : (if isWord t then Demangler.found slice pos t.length known else known) =
          learn known t := by
        rw [Demangler.found, hsubstr, learn, Dictionary.learn, fits]
        by_cases hword : isWord t = true
        · simp [hword]
        · simp [hword]
      rw [eachWord, List.foldl_cons, hlearn, ih hdrop]

/-- The demangler learns the words of a part of an identifier. -/
lemma findWords_found {ts : List (List UInt8)} (h : Cut ts) (known : List (List UInt8)) :
    findWords (Demangler.found ts.flatten) ts.flatten known = ts.foldl learn known := by
  rw [findWords_eq, h.pieces_flatten]
  exact eachWord_found rfl

/-! ### What the mangler finds -/

/-- The replacements in an identifier that is written like this, from `pos` on. -/
def replacements (pos : ℕ) : Plan (List UInt8) → List WordReplacement
  | .literal _ => []
  | .refer lit i w rest =>
      ⟨pos + lit.flatten.length, some i⟩ ::
        replacements (pos + lit.flatten.length + w.length) rest

/-- The places of the words that are learned from pieces, from `pos` on. -/
def learnedAt (pos : ℕ) (known : List (List UInt8)) : List (List UInt8) → List SubstitutionWord
  | [] => []
  | t :: ts =>
      (if fits t ∧ known.length < maxNumWords then [⟨pos, t.length⟩] else []) ++
        learnedAt (pos + t.length) (learn known t) ts

/-- The places of the words that are learned from an identifier that is written like this. -/
def newWords (pos : ℕ) (known : List (List UInt8)) : Plan (List UInt8) → List SubstitutionWord
  | .literal lit => learnedAt pos known lit
  | .refer lit _ w rest =>
      learnedAt pos known lit ++
        newWords (pos + lit.flatten.length + w.length) (lit.foldl learn known) rest

lemma replacements_cons (pos : ℕ) (t : List UInt8) (p : Plan (List UInt8)) :
    replacements pos (p.cons t) = replacements (pos + t.length) p := by
  cases p with
  | literal => rfl
  | refer => simp [Plan.cons, replacements, Nat.add_assoc]

lemma newWords_cons (pos : ℕ) (known : List (List UInt8)) (t : List UInt8)
    (p : Plan (List UInt8)) : newWords pos known (p.cons t) =
      (if fits t ∧ known.length < maxNumWords then [⟨pos, t.length⟩] else []) ++
        newWords (pos + t.length) (learn known t) p := by
  cases p with
  | literal => rfl
  | refer => simp [Plan.cons, newWords, learnedAt, Nat.add_assoc]

/-- The text of a word that the mangler knows. -/
def text (str : List UInt8) (w : SubstitutionWord) : List UInt8 := substr str w.start w.length

/-- A word is looked up where its text is. -/
lemma lookupWord_eq (word buffer ident : List UInt8) (old new : List SubstitutionWord) :
    (lookupWord word buffer (old ++ new) 0 old.length).or
        (lookupWord word ident (old ++ new) old.length (old ++ new).length) =
      (old.map (text buffer) ++ new.map (text ident)).idxOf? word := by
  rw [lookupWord, lookupWord, List.take_left, List.drop_zero, List.take_length, List.drop_left,
    List.idxOf?, List.findIdx?_append, List.findIdx?_map, List.findIdx?_map, List.length_map]
  simp only [Nat.add_zero, Option.map_id']
  rfl

/-- The plan of an identifier, with the words that are known. -/
abbrev plan : List (List UInt8) → List (List UInt8) → Plan (List UInt8) :=
  Dictionary.write fits maxNumWords

/-- What the mangler does with a word depends on the texts of the words it knows. -/
lemma mangler_found {m : Mangler} {ident t : List UInt8} {pos : ℕ} {new : List SubstitutionWord}
    {known : List (List UInt8)} {repls : List WordReplacement}
    (hknown : m.words.map (text m.buffer) ++ new.map (text ident) = known)
    (ht : substr ident pos t.length = t) :
    m.found ident pos t.length ⟨m.words ++ new, repls⟩ =
      match known.idxOf? t with
      | some i => ⟨m.words ++ new, repls ++ [⟨pos, some i⟩]⟩
      | none =>
          if t.length ≥ 2 ∧ known.length < maxNumWords then
            ⟨m.words ++ (new ++ [⟨pos, t.length⟩]), repls⟩
          else ⟨m.words ++ new, repls⟩ := by
  have hlength : known.length = (m.words ++ new).length := by
    rw [← hknown, List.length_append, List.length_map, List.length_map, List.length_append]
  rw [Mangler.found]
  simp only [ht]
  rw [lookupWord_eq, hknown]
  cases known.idxOf? t with
  | some i => rfl
  | none => simp only [hlength, List.append_assoc]

/-- A piece that is not known is learned, or nothing is done with it. -/
lemma mangler_unknown {m : Mangler} {ident t : List UInt8} {pos : ℕ} {new : List SubstitutionWord}
    {known : List (List UInt8)} {repls : List WordReplacement}
    (hknown : m.words.map (text m.buffer) ++ new.map (text ident) = known)
    (ht : substr ident pos t.length = t) (hlookup : known.idxOf? t = none) :
    (if isWord t then m.found ident pos t.length ⟨m.words ++ new, repls⟩
      else ⟨m.words ++ new, repls⟩) =
      ⟨m.words ++ (new ++
        if fits t ∧ known.length < maxNumWords then [⟨pos, t.length⟩] else []), repls⟩ := by
  rw [mangler_found hknown ht, hlookup, fits]
  by_cases hword : isWord t = true
  · by_cases hlearn : t.length ≥ 2 ∧ known.length < maxNumWords
    · simp [hword, hlearn]
    · simp [hword, hlearn]
  · simp [hword]

/-- The words of the mangler are learned as those of the demangler are. -/
lemma known_learn {m : Mangler} {ident t : List UInt8} {pos : ℕ} {new : List SubstitutionWord}
    {known : List (List UInt8)}
    (hknown : m.words.map (text m.buffer) ++ new.map (text ident) = known)
    (ht : substr ident pos t.length = t) :
    m.words.map (text m.buffer) ++ List.map (text ident) (new ++
      if fits t ∧ known.length < maxNumWords then [⟨pos, t.length⟩] else []) =
      learn known t := by
  rw [List.map_append, ← List.append_assoc, hknown, learn, Dictionary.learn]
  split
  · rw [List.map_singleton, text, ht]
  · rw [List.map_nil, List.append_nil]

lemma eachWord_mangler {m : Mangler} {ident : List UInt8} {pos : ℕ} {ts : List (List UInt8)}
    {new : List SubstitutionWord} {known : List (List UInt8)} {repls : List WordReplacement}
    (hdrop : ident.drop pos = ts.flatten)
    (hknown : m.words.map (text m.buffer) ++ new.map (text ident) = known)
    (hfits : ∀ w ∈ known, fits w = true) :
    eachWord (m.found ident) pos ts ⟨m.words ++ new, repls⟩ =
      ⟨m.words ++ (new ++ newWords pos known (plan known ts)),
        repls ++ replacements pos (plan known ts)⟩ := by
  induction ts generalizing pos new known repls with
  | nil => simp [eachWord, plan, Dictionary.write, newWords, learnedAt, replacements]
  | cons t ts ih =>
      obtain ⟨hsubstr, hdrop'⟩ := substr_of_drop hdrop
      rw [eachWord]
      cases hlookup : known.idxOf? t with
      | some i =>
          have hplan : plan known (t :: ts) = .refer [] i t (plan known ts) :=
            Dictionary.write_of_some hlookup
          have hmem : t ∈ known := by
            by_contra hnot
            rw [List.idxOf?_eq_none_iff.2 hnot] at hlookup
            cases hlookup
          have hword : isWord t = true := (Bool.and_eq_true_iff.1 (hfits t hmem)).1
          rw [if_pos hword, mangler_found hknown hsubstr, hlookup]
          dsimp only
          rw [ih hdrop' hknown hfits, hplan]
          simp [newWords, learnedAt, replacements]
      | none =>
          have hplan : plan known (t :: ts) = (plan (learn known t) ts).cons t :=
            Dictionary.write_of_none hlookup
          rw [mangler_unknown hknown hsubstr hlookup, hplan, newWords_cons, replacements_cons,
            ← List.append_assoc new]
          exact ih hdrop' (known_learn hknown hsubstr) (Dictionary.forall_mem_learn hfits)

/-- The mangler finds the words that a plan of the identifier refers to, and those that are new. -/
lemma findWords_mangler {m : Mangler} {known : List (List UInt8)}
    (hknown : m.words.map (text m.buffer) = known) (hfits : ∀ w ∈ known, fits w = true)
    (ident : List UInt8) : findWords (m.found ident) ident ⟨m.words, []⟩ =
      ⟨m.words ++ newWords 0 known (plan known (pieces ident)),
        replacements 0 (plan known (pieces ident))⟩ := by
  have hknown' : m.words.map (text m.buffer) ++ [].map (text ident) = known := by
    rw [hknown, List.map_nil, List.append_nil]
  have hdrop : ident.drop 0 = (pieces ident).flatten := (flatten_pieces ident).symm
  have heach : eachWord (m.found ident) 0 (pieces ident) ⟨m.words ++ [], []⟩ = _ :=
    eachWord_mangler hdrop hknown' hfits
  rw [List.append_nil, List.nil_append, List.nil_append] at heach
  rw [findWords_eq, heach]

end Mangle

end ICDump
