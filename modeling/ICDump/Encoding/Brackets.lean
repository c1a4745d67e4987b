/-
Containment of brackets.

`MatchedAt it rest` says that `it` starts with an opening bracket, and that `rest` is what comes
after the bracket that closes it.  One would like `process` to go from `it` to `rest`, whatever
is inside.  It does so unless it trips on the way (`TripsAt`, `process_contained`).  Digits, a
qualifier, a `^` or the name of a field with no type behind it make it take the closing bracket for
the code of a type; an array without a dimension is left right behind its opening bracket; and the
name of an opaque union goes on behind the closing one.

Where the bracket's own loop does the first, it is not contained (`process_not_contained`).  In
general one slip may make up for another: in `{A=[^]}` the inner bracket is left too early, and its
closing bracket is taken for the code of a type, so that the outer one is contained.
-/
import ICDump.Encoding.Calls
import ICDump.Encoding.Grammar

namespace ICDump

/-! ### Matching brackets -/

/-- The opening brackets and the closing brackets that match them. -/
inductive Brackets : Char → Char → Prop
  | brace : Brackets '{' '}'
  | paren : Brackets '(' ')'
  | square : Brackets '[' ']'

/-- A string in which brackets are well nested.  Brackets between quotes do not count. -/
inductive Nested : Str → Prop
  | nil : Nested []
  | letter {c : Char} {w : Str} (hc : c ∉ ['{', '}', '(', ')', '[', ']', '"']) (h : Nested w) :
      Nested (c :: w)
  | quoted {n w : Str} (hn : '"' ∉ n) (h : Nested w) : Nested ('"' :: n ++ '"' :: w)
  | bracket {b c : Char} {w v : Str} (hb : Brackets b c) (hw : Nested w) (hv : Nested v) :
      Nested (b :: w ++ c :: v)

/-- The string starts with an opening bracket, and `rest` comes after the bracket that closes
it. -/
def MatchedAt (it rest : Str) : Prop :=
  ∃ b c w, Brackets b c ∧ Nested w ∧ it = b :: w ++ c :: rest

/-- `process`, called at `it`, trips: it takes a closing bracket or a quote for the code of a type,
it finds an array without a dimension, or a structure or union with a name in which brackets are
not well nested, as in an opaque union, whose closing bracket is taken into the name. -/
inductive TripsAt : Str → Prop
  | code {it rest : Str} {c : Char} (hc : codeAt it = c :: rest) (h : c ∈ ['}', ')', ']', '"']) :
      TripsAt it
  | dimension {it rest : Str} (hc : codeAt it = '[' :: rest) (h : (readStrNumber rest).1 = []) :
      TripsAt it
  | structName {it rest : Str} (hc : codeAt it = '{' :: rest)
      (h : ¬ Nested ((skipChar '?' rest).takeWhile fun c => c != '=' && c != '}')) : TripsAt it
  | unionName {it rest : Str} (hc : codeAt it = '(' :: rest) (h : ¬ Nested (nameAt rest)) :
      TripsAt it

variable {b c d : Char} {it rest u v w : Str}

/-! ### Nested strings -/

lemma Brackets.closing (h : Brackets b c) : c ∈ ['}', ')', ']'] := by
  cases h <;> simp

lemma Brackets.eq (h : Brackets b c) (h' : Brackets b d) : c = d := by
  cases h <;> cases h' <;> rfl

/-- What a nested string can start with. -/
lemma Nested.cons_cases (h : Nested (c :: w)) :
    c ∉ ['{', '}', '(', ')', '[', ']', '"'] ∧ Nested w ∨
      (∃ n v, c = '"' ∧ '"' ∉ n ∧ w = n ++ '"' :: v ∧ Nested v) ∨
      ∃ d u v, Brackets c d ∧ Nested u ∧ Nested v ∧ w = u ++ d :: v := by
  generalize hx : c :: w = x at h
  cases h with
  | nil => exact absurd hx (List.cons_ne_nil c w)
  | letter hc h =>
      obtain ⟨rfl, rfl⟩ := List.cons.inj hx
      exact Or.inl ⟨hc, h⟩
  | quoted hn h =>
      obtain ⟨rfl, rfl⟩ := List.cons.inj hx
      exact Or.inr (Or.inl ⟨_, _, rfl, hn, rfl, h⟩)
  | bracket hb hu hv =>
      obtain ⟨rfl, rfl⟩ := List.cons.inj hx
      exact Or.inr (Or.inr ⟨_, _, _, hb, hu, hv, rfl⟩)

lemma Nested.not_closing (hc : c ∈ ['}', ')', ']']) : ¬ Nested (c :: w) := by
  intro h
  rcases h.cons_cases with ⟨hn, -⟩ | ⟨_, _, rfl, -⟩ | ⟨d, _, _, hb, -⟩
  · exact hn (by simp at hc ⊢; tauto)
  · exact absurd hc (by decide)
  · cases hb <;> exact absurd hc (by decide)

/-- The bracket that closes a string is the first one in front of which brackets are nested. -/
lemma append_closing_inj {d' : Char} {x y : Str} (hu : ∀ v, Nested (u ++ v) → Nested v)
    (hw : w.length ≤ u.length → ∀ v, Nested (w ++ v) → Nested v) (hu' : Nested u) (hw' : Nested w)
    (hd : d ∈ ['}', ')', ']']) (hd' : d' ∈ ['}', ')', ']']) (h : u ++ d :: x = w ++ d' :: y) :
    u = w ∧ x = y := by
  rcases List.append_eq_append_iff.1 h with ⟨z, rfl, hz⟩ | ⟨z, rfl, hz⟩
  · cases z with
    | nil =>
        obtain ⟨-, rfl⟩ := List.cons.inj hz
        exact ⟨(List.append_nil u).symm, rfl⟩
    | cons e z =>
        obtain ⟨rfl, -⟩ := List.cons.inj hz
        exact absurd (hu _ hw') (Nested.not_closing hd)
  · cases z with
    | nil =>
        obtain ⟨-, rfl⟩ := List.cons.inj hz
        exact ⟨List.append_nil w, rfl⟩
    | cons e z =>
        obtain ⟨rfl, -⟩ := List.cons.inj hz
        exact absurd (hw (by simp) _ hu') (Nested.not_closing hd')

/-- A name ends at the first quote. -/
lemma append_quote_inj {x y : Str} (hu : '"' ∉ u) (hw : '"' ∉ w)
    (h : u ++ '"' :: x = w ++ '"' :: y) : x = y := by
  rcases List.append_eq_append_iff.1 h with ⟨z, rfl, hz⟩ | ⟨z, rfl, hz⟩
  · cases z with
    | nil => exact (List.cons.inj hz).2
    | cons e z =>
        obtain ⟨rfl, -⟩ := List.cons.inj hz
        exact absurd (by simp) hw
  · cases z with
    | nil => exact (List.cons.inj hz).2.symm
    | cons e z =>
        obtain ⟨rfl, -⟩ := List.cons.inj hz
        exact absurd (by simp) hu

/-- What follows a nested string in a nested string is nested. -/
lemma Nested.of_append (hu : Nested u) (h : Nested (u ++ v)) : Nested v := by
  induction hn : u.length using Nat.strong_induction_on generalizing u v with
  | _ n ih =>
      cases u with
      | nil => exact h
      | cons c u =>
          rw [List.length_cons] at hn
          rcases hu.cons_cases with ⟨hc, hu⟩ | ⟨n₁, u₁, rfl, hn₁, rfl, hu₁⟩ |
            ⟨d, u₁, u₂, hb, hu₁, hu₂, rfl⟩
          · rcases h.cons_cases with ⟨-, h⟩ | ⟨_, _, rfl, -⟩ | ⟨_, _, _, hb, -⟩
            · exact ih u.length (by omega) hu h rfl
            · exact absurd (by decide) hc
            · cases hb <;> exact absurd (by decide) hc
          · rcases h.cons_cases with ⟨hc, -⟩ | ⟨n₂, v₂, -, hn₂, heq, hv₂⟩ | ⟨_, _, _, hb, -⟩
            · exact absurd (by decide) hc
            · have heq : n₁ ++ '"' :: (u₁ ++ v) = n₂ ++ '"' :: v₂ := by simpa using heq
              rw [List.length_append, List.length_cons] at hn
              obtain rfl := append_quote_inj hn₁ hn₂ heq
              exact ih u₁.length (by omega) hu₁ hv₂ rfl
            · cases hb
          · rcases h.cons_cases with ⟨hc, -⟩ | ⟨_, _, rfl, -⟩ | ⟨d', v₁, v₂, hb', hv₁, hv₂, heq⟩
            · cases hb <;> exact absurd (by decide) hc
            · cases hb
            · have heq : u₁ ++ d :: (u₂ ++ v) = v₁ ++ d' :: v₂ := by simpa using heq
              rw [List.length_append, List.length_cons] at hn
              obtain ⟨rfl, rfl⟩ := append_closing_inj
                (fun v h => ih u₁.length (by omega) hu₁ h rfl)
                (fun hle v h => ih v₁.length (by omega) hv₁ h rfl)
                hu₁ hv₁ hb.closing hb'.closing heq
              exact ih u₂.length (by omega) hu₂ hv₂ rfl

/-- The bracket that closes a string is where the nested string in front of it ends. -/
lemma Nested.append_closing_inj {d' : Char} {x y : Str} (hu : Nested u) (hw : Nested w)
    (hd : d ∈ ['}', ')', ']']) (hd' : d' ∈ ['}', ')', ']']) (h : u ++ d :: x = w ++ d' :: y) :
    u = w ∧ x = y :=
  ICDump.append_closing_inj (fun _ => hu.of_append) (fun _ _ => hw.of_append) hu hw hd hd' h

/-! ### Cursors in a bracket -/

/-- The cursor is in a bracket that is closed by `d`, with `rest` behind it. -/
def Inside (d : Char) (rest it : Str) : Prop := ∃ w, Nested w ∧ it = w ++ d :: rest

namespace Inside

variable {p : Char → Bool}

lemma ne_nil (h : Inside d rest it) : it ≠ [] := by
  obtain ⟨w, -, rfl⟩ := h
  simp

/-- A letter that is no bracket and no quote. -/
lemma tail (hd : d ∈ ['}', ')', ']']) (hc : c ∉ ['{', '}', '(', ')', '[', ']', '"'])
    (h : Inside d rest (c :: it)) : Inside d rest it := by
  obtain ⟨w, hw, heq⟩ := h
  cases w with
  | nil =>
      obtain ⟨rfl, -⟩ := List.cons.inj heq
      exact absurd (by simp at hd ⊢; tauto) hc
  | cons e w =>
      obtain ⟨rfl, rfl⟩ := List.cons.inj heq
      rcases hw.cons_cases with ⟨-, hw⟩ | ⟨_, _, rfl, -⟩ | ⟨_, _, _, hb, -⟩
      · exact ⟨w, hw, rfl⟩
      · exact absurd (by decide) hc
      · cases hb <;> exact absurd (by decide) hc

lemma dropWhile (hd : d ∈ ['}', ')', ']'])
    (hp : ∀ c, p c = true → c ∉ ['{', '}', '(', ')', '[', ']', '"']) (h : Inside d rest it) :
    Inside d rest (it.dropWhile p) := by
  induction it with
  | nil => exact h
  | cons c it ih =>
      rw [List.dropWhile_cons]
      split
      · rename_i hc
        exact ih (h.tail hd (hp c hc))
      · exact h

/-- A bracket inside of the bracket. -/
lemma bracket (hd : d ∈ ['}', ')', ']']) (hb : Brackets b c) (h : Inside d rest (b :: it)) :
    ∃ w rest', Nested w ∧ it = w ++ c :: rest' ∧ Inside d rest rest' := by
  obtain ⟨w, hw, heq⟩ := h
  cases w with
  | nil =>
      obtain ⟨rfl, -⟩ := List.cons.inj heq
      cases hb <;> exact absurd hd (by decide)
  | cons e w =>
      obtain ⟨rfl, rfl⟩ := List.cons.inj heq
      rcases hw.cons_cases with ⟨hn, -⟩ | ⟨_, _, rfl, -⟩ | ⟨c', u, v, hb', hu, hv, rfl⟩
      · cases hb <;> exact absurd (by decide) hn
      · cases hb
      · obtain rfl := hb.eq hb'
        exact ⟨u, v ++ d :: rest, hu, by simp, v, hv, rfl⟩

/-- A loop that has not left the bracket ends at the letter that closes it. -/
lemma eq_of_atDelim (hd : d ∈ ['}', ')', ']']) (h : Inside d rest it)
    (hstop : atDelim d it = true) : it = d :: rest := by
  obtain ⟨w, hw, rfl⟩ := h
  cases w with
  | nil => rfl
  | cons e w =>
      obtain rfl : e = d := by simpa [atDelim] using hstop
      exact absurd hw (Nested.not_closing hd)

/-- A name is read as a whole. -/
lemma readOptName (hd : d ∈ ['}', ')', ']']) (h : Inside d rest it) :
    Inside d rest (ICDump.readOptName it).2 := by
  obtain ⟨w, hw, rfl⟩ := h
  cases w with
  | nil =>
      rw [List.nil_append, readOptName_of_ne (by rintro rfl; exact absurd hd (by decide))]
      exact ⟨[], .nil, rfl⟩
  | cons e w =>
      by_cases he : e = '"'
      · subst he
        rcases hw.cons_cases with ⟨hn, -⟩ | ⟨n, v, -, hn, rfl, hv⟩ | ⟨_, _, _, hb, -⟩
        · exact absurd (by decide) hn
        · have hread := readOptName_quoted hn (v ++ d :: rest)
          rw [show ('"' :: (n ++ '"' :: v)) ++ d :: rest = '"' :: n ++ '"' :: (v ++ d :: rest) by
            simp, hread]
          exact ⟨v, hv, rfl⟩
        · cases hb
      · rw [List.cons_append, readOptName_of_ne he]
        exact ⟨e :: w, hw, rfl⟩

end Inside

/-! ### Reading in a bracket -/

namespace Inside

lemma skipDigits (hd : d ∈ ['}', ')', ']']) (h : Inside d rest it) :
    Inside d rest (ICDump.skipDigits it) :=
  h.dropWhile hd fun c hc hmem => by
    simp only [List.mem_cons, List.not_mem_nil, or_false] at hmem
    rcases hmem with rfl | rfl | rfl | rfl | rfl | rfl | rfl <;> exact absurd hc (by decide)

lemma codeAt (hd : d ∈ ['}', ')', ']']) (h : Inside d rest it) :
    Inside d rest (ICDump.codeAt it) := by
  rw [ICDump.codeAt, processSpecifiers_eq]
  refine (h.skipDigits hd).dropWhile hd fun c hc hmem => ?_
  simp only [List.mem_cons, List.not_mem_nil, or_false] at hmem
  rcases hmem with rfl | rfl | rfl | rfl | rfl | rfl | rfl <;> exact absurd hc (by decide)

lemma skipChar (hd : d ∈ ['}', ')', ']']) (hc : c ∉ ['{', '}', '(', ')', '[', ']', '"'])
    (h : Inside d rest it) : Inside d rest (ICDump.skipChar c it) := by
  cases it with
  | nil => exact h
  | cons e it =>
      rw [ICDump.skipChar]
      split
      · rename_i he
        exact h.tail hd (he ▸ hc)
      · exact h

/-- Behind a nested name and `=`, the cursor is still in the bracket. -/
lemma bodyAt (hd : d ∈ ['}', ')', ']']) (h : Inside d rest it) (hn : Nested (nameAt it)) :
    Inside d rest (ICDump.bodyAt it) := by
  obtain ⟨w, hw, heq⟩ := h.skipChar (c := '?') hd (by decide)
  have hsplit := List.takeWhile_append_dropWhile (p := (· != '=')) (l := ICDump.skipChar '?' it)
  have hhead := List.head?_dropWhile_not (· != '=') (ICDump.skipChar '?' it)
  rw [ICDump.bodyAt]
  rw [← nameAt, heq] at hsplit
  rw [heq] at hhead ⊢
  cases hbody : (w ++ d :: rest).dropWhile (· != '=') with
  | nil =>
      -- the name would go past the bracket
      rw [hbody, List.append_nil] at hsplit
      rw [hsplit] at hn
      exact absurd (hw.of_append hn) (Nested.not_closing hd)
  | cons e z =>
      rw [hbody] at hsplit hhead
      obtain rfl : e = '=' := by simpa using hhead
      rcases List.append_eq_append_iff.1 hsplit with ⟨t, rfl, ht⟩ | ⟨t, hname, ht⟩
      · cases t with
        | nil =>
            obtain ⟨rfl, -⟩ := List.cons.inj ht
            exact absurd hd (by decide)
        | cons e t =>
            obtain ⟨rfl, rfl⟩ := List.cons.inj ht
            exact Inside.tail hd (by decide) ⟨'=' :: t, hn.of_append hw, rfl⟩
      · cases t with
        | nil =>
            obtain ⟨rfl, -⟩ := List.cons.inj ht
            exact absurd hd (by decide)
        | cons e t =>
            obtain ⟨rfl, -⟩ := List.cons.inj ht
            rw [hname] at hn
            exact absurd (hw.of_append hn) (Nested.not_closing hd)

end Inside

/-- Where `process` does not trip at shorter strings, it stays in the bracket. -/
def StaysInside (n : ℕ) : Prop :=
  ∀ d rest it, d ∈ ['}', ')', ']'] → it.length < n → Throughout (fun it => ¬ TripsAt it) it →
    Inside d rest it → Inside d rest (process it).2

/-- The loop of a bracket ends at the letter that closes it. -/
lemma Repeats.end_eq {β γ : Type} {R : Str → β → Str → Prop} {p : Reader Char γ} {bs : List β}
    {it' : Str} (hd : d ∈ ['}', ')', ']']) (hR : ∀ it b it', R it b it' → (p it).2 = it')
    (h : Repeats R it (atDelim d) bs it') (hit : Inside d rest it)
    (hbody : ∀ it₁, Reader.Visits (atDelim d) p it it₁ → Inside d rest it₁ →
      Inside d rest (p it₁).2) : it' = d :: rest :=
  (h.invariant hR hit hbody).eq_of_atDelim hd h.stop_eq

lemma Closes.eq_of_cons {closed : Bool} {rest' : Str} (h : Closes d closed (d :: rest) rest') :
    rest' = rest := h.head?_eq.2

lemma process_square (hs : StaysInside it.length) (ht : Throughout (fun it => ¬ TripsAt it) it)
    (hc : codeAt it = '[' :: (w ++ ']' :: rest)) (hw : Nested w) : (process it).2 = rest := by
  have hd : ']' ∈ ['}', ')', ']'] := by decide
  have hnum : (readStrNumber (w ++ ']' :: rest)).1 ≠ [] := fun hnum => ht.self (.dimension hc hnum)
  obtain ⟨p, rest', h⟩ := exists_reads it
  obtain ⟨ps, closed, it', rfl, hloop, hend⟩ := h.array_of_codeAt hc hnum
  have hstart : Inside ']' rest (readStrNumber (w ++ ']' :: rest)).2 := by
    rw [readStrNumber_snd]
    exact Inside.skipDigits hd ⟨w, hw, rfl⟩
  have hR : ∀ it p it', Reads it p it' → (process it).2 = it' := fun _ _ _ h => h.process_snd
  obtain rfl := hloop.end_eq hd hR hstart fun it₁ hv hit₁ => by
    have hcall : Calls it it₁ := .array hc hnum hv
    exact hs _ _ _ hd hcall.length_lt (ht.of_calls hcall) hit₁
  rw [h.process_snd, hend.eq_of_cons]

lemma process_aggregate (tag : Aggregate) (hs : StaysInside it.length)
    (ht : Throughout (fun it => ¬ TripsAt it) it)
    (hc : codeAt it = tag.opening :: (w ++ tag.closing :: rest)) (hw : Nested w)
    (ho : tag = .struct → ¬ OpaqueName '}' (w ++ tag.closing :: rest))
    (hn : Nested (nameAt (w ++ tag.closing :: rest))) : (process it).2 = rest := by
  have hd : tag.closing ∈ ['}', ')', ']'] := by cases tag <;> decide
  obtain ⟨p, rest', h⟩ := exists_reads it
  obtain ⟨fs, closed, it', rfl, hloop, hend⟩ := h.aggregate_of_codeAt tag hc ho
  have hstart : Inside tag.closing rest (bodyAt (w ++ tag.closing :: rest)) :=
    Inside.bodyAt hd ⟨w, hw, rfl⟩ hn
  have hR : ∀ it f it', ReadsField it f it' → (processAttr process it).2 = it' :=
    fun _ _ _ h => h.processAttr_snd
  obtain rfl := hloop.end_eq hd hR hstart fun it₁ hv hit₁ => by
      have hcall : Calls it (readOptName it₁).2 := (calls_aggregate_iff _ hc).2 ⟨ho, it₁, hv, rfl⟩
      exact hs _ _ _ hd hcall.length_lt (ht.of_calls hcall) (hit₁.readOptName hd)
  rw [h.process_snd, hend.eq_of_cons]

lemma process_opaque (hc : codeAt it = '{' :: (w ++ '}' :: rest)) (hw : Nested w)
    (ho : OpaqueName '}' (w ++ '}' :: rest))
    (hn : Nested ((skipChar '?' (w ++ '}' :: rest)).takeWhile fun c => c != '=' && c != '}')) :
    (process it).2 = rest := by
  have hd : '}' ∈ ['}', ')', ']'] := by decide
  obtain ⟨w', hw', heq⟩ := Inside.skipChar (c := '?') hd (by decide) ⟨w, hw, rfl⟩
  rw [process_of_codeAt hc, (LeafAt.opaqueStruct ho).processCode_eq]
  rw [OpaqueName] at ho
  obtain ⟨z, hz⟩ := List.head?_eq_some_iff.1 ho
  have hsplit := List.takeWhile_append_dropWhile (p := fun c => c != '=' && c != '}')
    (l := skipChar '?' (w ++ '}' :: rest))
  rw [hz] at hsplit ⊢
  exact (hn.append_closing_inj hw' hd hd (hsplit.trans heq)).2

/-- A bracket is left behind the letter that closes it. -/
lemma process_bracket (hs : StaysInside it.length) (ht : Throughout (fun it => ¬ TripsAt it) it)
    (hb : Brackets b c) (hc : codeAt it = b :: (w ++ c :: rest)) (hw : Nested w) :
    (process it).2 = rest := by
  cases hb with
  | square => exact process_square hs ht hc hw
  | paren =>
      refine process_aggregate .union hs ht hc hw nofun ?_
      by_contra hn
      exact ht.self (.unionName hc hn)
  | brace =>
      have hn : Nested
          ((skipChar '?' (w ++ '}' :: rest)).takeWhile fun c => c != '=' && c != '}') := by
        by_contra hn
        exact ht.self (.structName hc hn)
      by_cases ho : OpaqueName '}' (w ++ '}' :: rest)
      · exact process_opaque hc hw ho hn
      · refine process_aggregate .struct hs ht hc hw (fun _ => ho) ?_
        rwa [(span_of_not_opaqueName ho).2] at hn

lemma LeafAt.inside {t : Ty} {rest' : Str} (h : LeafAt c it t rest')
    (hc : c ∉ ['{', '}', '(', ')', '[', ']', '"']) (hd : d ∈ ['}', ')', ']'])
    (hit : Inside d rest it) : Inside d rest rest' := by
  cases h with
  | primitive | cls | selector | unknown => exact hit
  | bitField =>
      rw [readStrNumber_snd]
      exact hit.skipDigits hd
  | voidPointer | block => exact hit.tail hd (by decide)
  | object => exact hit.readOptName hd
  | opaqueStruct => exact absurd (by decide) hc

lemma staysInside (n : ℕ) : StaysInside n := by
  induction n with
  | zero => exact fun d rest it _ hlt => absurd hlt (Nat.not_lt_zero _)
  | succ n ih =>
      intro d rest it hd hlt ht hit
      have hs : StaysInside it.length := fun d rest it' hd hlt' =>
        ih d rest it' hd (by omega)
      cases hcode : codeAt it with
      | nil => exact absurd hcode (hit.codeAt hd).ne_nil
      | cons c it' =>
          have hit' := hit.codeAt hd
          rw [hcode] at hit'
          by_cases hb : ∃ c', Brackets c c'
          · obtain ⟨c', hb⟩ := hb
            obtain ⟨w, rest', hw, rfl, hrest⟩ := hit'.bracket hd hb
            rw [process_bracket hs ht hb hcode hw]
            exact hrest
          · have hc : c ∉ ['{', '}', '(', ')', '[', ']', '"'] := by
              intro hmem
              simp only [List.mem_cons, List.not_mem_nil, or_false] at hmem
              rcases hmem with rfl | rfl | rfl | rfl | rfl | rfl | rfl
              · exact hb ⟨_, .brace⟩
              · exact ht.self (.code hcode (by decide))
              · exact hb ⟨_, .paren⟩
              · exact ht.self (.code hcode (by decide))
              · exact hb ⟨_, .square⟩
              · exact ht.self (.code hcode (by decide))
              · exact ht.self (.code hcode (by decide))
            have hin := hit'.tail hd hc
            obtain ⟨p, rest', h⟩ := exists_reads it
            rw [h.process_snd]
            cases h with
            | nothing hc' => exact absurd (hcode.symm.trans hc') (List.cons_ne_nil _ _)
            | rejected hc' =>
                obtain ⟨-, rfl⟩ := List.cons.inj (hcode.symm.trans hc')
                exact hin
            | leaf hc' hl =>
                obtain ⟨rfl, rfl⟩ := List.cons.inj (hcode.symm.trans hc')
                exact hl.inside hc hd hin
            | pointer hc' hv hp =>
                obtain ⟨-, rfl⟩ := List.cons.inj (hcode.symm.trans hc')
                rw [← hp.process_snd]
                have hcall : Calls it _ := .pointer hc' hv
                exact hs _ _ _ hd hcall.length_lt (ht.of_calls hcall) hin
            | array hc' =>
                obtain ⟨rfl, -⟩ := List.cons.inj (hcode.symm.trans hc')
                exact absurd (by decide) hc
            | @aggregate _ _ _ _ tag _ _ hc' =>
                obtain ⟨rfl, -⟩ := List.cons.inj (hcode.symm.trans hc')
                cases tag <;> exact absurd (by decide) hc

lemma codeAt_of_matchedAt (h : MatchedAt it rest) : ∃ b c w, Brackets b c ∧ Nested w ∧
    codeAt it = b :: (w ++ c :: rest) := by
  obtain ⟨b, c, w, hb, hw, rfl⟩ := h
  exact ⟨b, c, w, hb, hw, by cases hb <;> rfl⟩

/-- **A bracket is contained** unless `process` trips on the way: it returns behind the letter that
closes the bracket. -/
theorem process_contained (h : MatchedAt it rest) (ht : Throughout (fun it => ¬ TripsAt it) it) :
    (process it).2 = rest := by
  obtain ⟨b, c, w, hb, hw, hcode⟩ := codeAt_of_matchedAt h
  exact process_bracket (staysInside _) ht hb hcode hw

/-- The array `[4i]` is left behind its bracket. -/
theorem process_contained_array : (process ['[', '4', 'i', ']', '}']).2 = ['}'] := by
  have hnested : Nested ['4', 'i'] := .letter (by decide) (.letter (by decide) .nil)
  have hcode : codeAt ['[', '4', 'i', ']', '}'] = ['[', '4', 'i', ']', '}'] := rfl
  have hint : codeAt ['i', ']', '}'] = ['i', ']', '}'] := rfl
  refine process_contained ⟨'[', ']', ['4', 'i'], .square, hnested, rfl⟩ (.mk ?_ fun it hcall => ?_)
  · rintro (⟨hc, h⟩ | ⟨hc, h⟩ | ⟨hc, -⟩ | ⟨hc, -⟩)
    · obtain ⟨rfl, -⟩ := List.cons.inj (hcode.symm.trans hc)
      exact absurd h (by decide)
    · obtain ⟨-, rfl⟩ := List.cons.inj (hcode.symm.trans hc)
      exact absurd h (by decide)
    all_goals exact absurd (List.cons.inj (hcode.symm.trans hc)).1 (by decide)
  · -- the only call is made at the letter `i`
    obtain ⟨-, hv⟩ := (calls_array_iff hcode).1 hcall
    obtain rfl : it = ['i', ']', '}'] := by
      cases hv with
      | here => rfl
      | next _ hv =>
          cases hv with
          | here hs | next hs => exact absurd hs (by decide)
    refine .mk ?_ fun it hcall => ?_
    · rintro (⟨hc, h⟩ | ⟨hc, -⟩ | ⟨hc, -⟩ | ⟨hc, -⟩)
      · obtain ⟨rfl, -⟩ := List.cons.inj (hint.symm.trans hc)
        exact absurd h (by decide)
      all_goals exact absurd (List.cons.inj (hint.symm.trans hc)).1 (by decide)
    · obtain ⟨c, hc, rest, hcode, -⟩ := hcall.exists_code
      obtain ⟨rfl, -⟩ := List.cons.inj (hint.symm.trans hcode)
      exact absurd hc (by decide)

/-! ### Brackets that are not contained -/

/-- A loop that takes the letter that closes it for the code of a type ends further on. -/
lemma Repeats.end_lt {β γ : Type} {R : Str → β → Str → Prop} {p : Reader Char γ} {bs : List β}
    {it₁ it' rest' : Str} {closed : Bool} (hR : ∀ it b it', R it b it' → (p it).2 = it')
    (hp : p.Forward) (hadv : p.Advances) (h : Repeats R it (atDelim d) bs it')
    (hv : Reader.Visits (atDelim d) p it it₁) (hend : Closes d closed it' rest')
    (hne : (p it₁).2 ≠ []) : rest'.length < (p it₁).2.length := by
  obtain ⟨bs', hrest⟩ := h.after_visit hR hv
  generalize (p it₁).2 = rest at hrest hne
  cases hrest with
  | done =>
      rw [hend.head?_eq.2, List.length_tail]
      have hpos := List.length_pos_of_ne_nil hne
      omega
  | next _ hb hrest =>
      have hlt := hadv rest hne
      rw [hR _ _ _ hb] at hlt
      exact (hend.suffix.trans (hrest.suffix hp hR)).length_le.trans_lt hlt

/-- **A bracket is not contained** when it opens an array without a dimension, or when its own loop
takes the letter that closes it for the code of a type, and something comes behind it. -/
theorem process_not_contained (h : MatchedAt it rest) (hne : rest ≠ [])
    (htrip : (∃ it', codeAt it = '[' :: it' ∧ (readStrNumber it').1 = []) ∨
      ∃ it' c, Calls it it' ∧ codeAt it' = c :: rest) : (process it).2 ≠ rest := by
  obtain ⟨b, c, w, hb, hw, hcode⟩ := codeAt_of_matchedAt h
  rcases htrip with ⟨it', hc, hnum⟩ | ⟨it', c', hcall, hc'⟩
  · rw [process_of_codeAt hc, processCode_array, processArray_of_nil hnum]
    obtain ⟨-, rfl⟩ := List.cons.inj (hcode.symm.trans hc)
    intro heq
    have hlen := congrArg List.length heq
    rw [List.length_append, List.length_cons] at hlen
    omega
  · have hsuf : c' :: rest <:+ w ++ c :: rest := by
      obtain ⟨_, -, it₁, hcode', hit'⟩ := hcall.exists_code
      obtain ⟨-, rfl⟩ := List.cons.inj (hcode.symm.trans hcode')
      rw [← hc']
      exact (codeAt_suffix it').trans hit'
    obtain ⟨rfl, -⟩ := List.cons.inj ((List.suffix_of_suffix_length_le hsuf
      (List.suffix_append w (c :: rest)) le_rfl).eq_of_length rfl)
    have hrest : (process it').2 = rest := by
      have hother : c' ∉ typeCodes := by cases hb <;> decide
      rw [process_of_codeAt hc', processCode_other hother]
    obtain ⟨p, rest', hp⟩ := exists_reads it
    rw [hp.process_snd]
    suffices hlt : rest'.length < rest.length from
      fun heq => absurd (congrArg List.length heq) hlt.ne
    have haggregate : ∀ tag : Aggregate, codeAt it = tag.opening :: (w ++ c' :: rest) →
        rest'.length < rest.length := by
      intro tag hcode
      obtain ⟨ho, it₁, hv, rfl⟩ := (calls_aggregate_iff _ hcode).1 hcall
      obtain ⟨fs, closed, it₂, rfl, hloop, hend⟩ := hp.aggregate_of_codeAt _ hcode ho
      have hattr : (processAttr process it₁).2 = rest := hrest
      have hlt := hloop.end_lt (fun _ _ _ h => h.processAttr_snd)
        (processAttr_forward process_forward) processAttr_advances hv hend (hattr.symm ▸ hne)
      rwa [hattr] at hlt
    cases hb with
    | square =>
        obtain ⟨hnum, hv⟩ := (calls_array_iff hcode).1 hcall
        obtain ⟨ps, closed, it₁, rfl, hloop, hend⟩ := hp.array_of_codeAt hcode hnum
        have hlt := hloop.end_lt (fun _ _ _ h => h.process_snd) process_forward process_advances hv
          hend (hrest.symm ▸ hne)
        rwa [hrest] at hlt
    | brace => exact haggregate .struct hcode
    | paren => exact haggregate .union hcode

/-- In `{S="v"}i` the name without a type takes the closing bracket, and what follows is lost. -/
theorem process_swallows :
    decodeType ['{', 'S', '=', '"', 'v', '"', '}', 'i'] = [] ∧
      ¬ ∀ s it rest, Nested s → it <:+ s → MatchedAt it rest → (process it).2 = rest := by
  refine ⟨rfl, fun h => ?_⟩
  have hbody : Nested ['S', '=', '"', 'v', '"'] :=
    .letter (by decide) (.letter (by decide) (.quoted (n := ['v']) (by decide) .nil))
  have hint : Nested ['i'] := .letter (by decide) .nil
  have hend := h ['{', 'S', '=', '"', 'v', '"', '}', 'i'] _ ['i'] (.bracket .brace hbody hint)
    List.suffix_rfl ⟨'{', '}', ['S', '=', '"', 'v', '"'], .brace, hbody, rfl⟩
  have hnil : (process ['{', 'S', '=', '"', 'v', '"', '}', 'i']).2 = [] := rfl
  exact absurd (hnil.symm.trans hend) (by simp)

end ICDump
