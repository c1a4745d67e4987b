/-
Structures against unions.

`process_structure` and `process_union` are two copies of one parser, except that
the first stops reading the name at the closing bracket and the second does not.
Exchanging the brackets of a string therefore exchanges structures and unions in
what is decoded, as long as the decoder is never called on an *opaque* structure
or union, one whose name is followed by the closing bracket instead of `=`.

The simulation `process_swap` goes by induction on the length of the string, along the
calls that the decoder makes (`Calls`).
-/
import ICDump.Encoding.Calls

namespace ICDump

/-! ### Exchanging the brackets -/

/-- Exchange braces and parentheses. -/
def swapChar (c : Char) : Char :=
  match c with
  | '{' => '('
  | '(' => '{'
  | '}' => ')'
  | ')' => '}'
  | c => c

/-- Exchange braces and parentheses in a string. -/
def swap (w : Str) : Str := w.map swapChar

namespace Ty

mutual

/-- Exchange structures and unions, and the brackets in every name. -/
def swapTree : Ty → Ty
  | null => null
  | primitive p => primitive p
  | selector => selector
  | unknown => unknown
  | cls => cls
  | block => block
  | object n => object (swap n)
  | pointer t => pointer (swapTree t)
  | array n t => array n (swapTree t)
  | struct n as => union (swap n) (swapAttrs as)
  | union n as => struct (swap n) (swapAttrs as)
  | bitField n => bitField n

/-- `swapTree` on the attributes. -/
def swapAttrs : List (Str × Ty) → List (Str × Ty)
  | [] => []
  | (n, t) :: as => (swap n, swapTree t) :: swapAttrs as

end

lemma swapAttrs_eq (as : List AttrTy) : swapAttrs as = as.map (Prod.map swap swapTree) := by
  induction as with
  | nil => rfl
  | cons a as ih => rw [swapAttrs, ih, List.map_cons]; rfl

@[simp] lemma isNull_swapTree (t : Ty) : t.swapTree.isNull = t.isNull := by
  cases t <;> rfl

end Ty

/-! ### Opaque structures and unions -/

/-- `process`, called at `it`, finds an opaque structure or union. -/
def OpaqueAt (it : Str) : Prop :=
  ∃ rest, codeAt it = '{' :: rest ∧ OpaqueName '}' rest ∨
    codeAt it = '(' :: rest ∧ OpaqueName ')' rest

/-! ### Tokens -/

/-- A letter is a bracket, or it is kept. -/
lemma swapChar_cases (c : Char) :
    c = '{' ∨ c = '(' ∨ c = '}' ∨ c = ')' ∨ swapChar c = c := by
  unfold swapChar
  split <;> simp

lemma swapChar_swapChar (c : Char) : swapChar (swapChar c) = c := by
  rcases swapChar_cases c with rfl | rfl | rfl | rfl | h
  · rfl
  · rfl
  · rfl
  · rfl
  · rw [h, h]

lemma swapChar_inj {c d : Char} : swapChar c = swapChar d ↔ c = d :=
  (Function.LeftInverse.injective swapChar_swapChar).eq_iff

/-- A property of letters that holds of the brackets all alike is kept. -/
lemma apply_swapChar {β : Type*} {f : Char → β} (h₁ : f '{' = f '(') (h₂ : f '}' = f ')')
    (c : Char) : f (swapChar c) = f c := by
  rcases swapChar_cases c with rfl | rfl | rfl | rfl | h
  · exact h₁.symm
  · exact h₁
  · exact h₂.symm
  · exact h₂
  · rw [h]

lemma dropWhile_swap {p q : Char → Bool} (h : ∀ c, p (swapChar c) = q c) (it : Str) :
    (swap it).dropWhile p = swap (it.dropWhile q) := by
  rw [swap, List.dropWhile_map, show p ∘ swapChar = q from funext h]
  rfl

lemma takeWhile_swap {p q : Char → Bool} (h : ∀ c, p (swapChar c) = q c) (it : Str) :
    (swap it).takeWhile p = swap (it.takeWhile q) := by
  rw [swap, List.takeWhile_map, show p ∘ swapChar = q from funext h]
  rfl

lemma skipChar_swap (c : Char) (it : Str) :
    skipChar (swapChar c) (swap it) = swap (skipChar c it) := by
  cases it with
  | nil => rfl
  | cons d it =>
      by_cases h : d = c
      · simp [swap, skipChar, h]
      · simp [swap, skipChar, h, swapChar_inj]

lemma skipDigits_swap (it : Str) : skipDigits (swap it) = swap (skipDigits it) :=
  dropWhile_swap (apply_swapChar rfl rfl) it

lemma processSpecifiers_swap (it : Str) :
    processSpecifiers (swap it) = swap (processSpecifiers it) := by
  induction it with
  | nil => rfl
  | cons c it ih =>
      have hc : specifier (swapChar c) = specifier c := apply_swapChar rfl rfl c
      rw [swap, List.map_cons, processSpecifiers, processSpecifiers, hc]
      split
      · rfl
      · exact ih

lemma codeAt_swap (it : Str) : codeAt (swap it) = swap (codeAt it) := by
  rw [codeAt, codeAt, skipDigits_swap, processSpecifiers_swap]

lemma processSpecifier_swap (it : Str) :
    processSpecifier (swap it) = Prod.map id swap (processSpecifier it) := by
  cases it with
  | nil => rfl
  | cons c it =>
      have hc : specifier (swapChar c) = specifier c := apply_swapChar rfl rfl c
      rw [swap, List.map_cons, processSpecifier, processSpecifier, hc]
      split <;> rfl

lemma readOptName_swap (it : Str) :
    readOptName (swap it) = Prod.map swap swap (readOptName it) := by
  cases it with
  | nil => rfl
  | cons c it =>
      have hc : swapChar c = '"' ↔ c = '"' := (@swapChar_inj c '"')
      have hne : ∀ c, (swapChar c != '"') = (c != '"') :=
        apply_swapChar (f := fun c => c != '"') rfl rfl
      have hskip := skipChar_swap '"' (it.dropWhile (· != '"'))
      rw [← dropWhile_swap (p := fun c => c != '"') hne] at hskip
      have htake := takeWhile_swap (p := fun c => c != '"') hne it
      rw [swap, List.map_cons, readOptName, readOptName]
      by_cases h : c = '"'
      · rw [if_pos h, if_pos (hc.2 h)]
        exact Prod.ext htake hskip
      · rw [if_neg h, if_neg (mt hc.1 h)]
        rfl

lemma swapChar_of_isDigit {c : Char} (h : isDigit c = true) : swapChar c = c := by
  rcases swapChar_cases c with rfl | rfl | rfl | rfl | hc
  · exact absurd h (by decide)
  · exact absurd h (by decide)
  · exact absurd h (by decide)
  · exact absurd h (by decide)
  · exact hc

lemma readStrNumberFrom_swap (n it : Str) :
    readStrNumberFrom n (swap it) = Prod.map id swap (readStrNumberFrom n it) := by
  induction it generalizing n with
  | nil => rfl
  | cons c it ih =>
      have hc : isDigit (swapChar c) = isDigit c := apply_swapChar rfl rfl c
      rw [swap, List.map_cons, readStrNumberFrom, readStrNumberFrom, hc]
      by_cases h : isDigit c = true
      · rw [if_pos h, if_pos h, swapChar_of_isDigit h]
        exact ih [c]
      · rw [if_neg h, if_neg h]
        rfl

lemma head?_swap (it : Str) (c : Char) :
    (swap it).head? = some (swapChar c) ↔ it.head? = some c := by
  cases it with
  | nil => simp [swap]
  | cons d it => simp [swap, swapChar_inj]

lemma tail_swap (it : Str) : (swap it).tail = swap it.tail := List.map_tail.symm

lemma atDelim_swap (c : Char) (it : Str) : atDelim (swapChar c) (swap it) = atDelim c it := by
  cases it with
  | nil => rfl
  | cons d it =>
      by_cases h : d = c
      · simp [swap, atDelim, h]
      · simp [swap, atDelim, h, swapChar_inj]

/-! ### The simulation -/

/-- The law that structures and unions are decoded alike, at one place. -/
def SwapsAt (it : Str) : Prop := process (swap it) = Prod.map Ty.swapTree swap (process it)

lemma processAttr_swap {it : Str} (h : SwapsAt (readOptName it).2) :
    processAttr process (swap it) =
      Prod.map (Prod.map swap Ty.swapTree) swap (processAttr process it) := by
  have hname := readOptName_swap it
  have hproc : process (readOptName (swap it)).2 =
      Prod.map Ty.swapTree swap (process (readOptName it).2) := by
    rw [hname]
    exact h
  simp only [processAttr, hproc]
  rw [hname]
  rfl

lemma processAttrs_swap (delim : Char) {mk mk' : List AttrTy → Ty}
    (hmk : ∀ as, mk' (as.map (Prod.map swap Ty.swapTree)) = (mk as).swapTree) {it : Str}
    (h : ∀ it', Reader.Visits (atDelim delim) (processAttr process) it it' →
      SwapsAt (readOptName it').2) :
    processAttrs process (swapChar delim) mk' (swap it) =
      Prod.map Ty.swapTree swap (processAttrs process delim mk it) := by
  have hloop := Reader.repeatUntil_map swapChar (Prod.map swap Ty.swapTree) rfl
    processAttr_advances rfl processAttr_advances (atDelim_swap delim) it
    fun it' hv => processAttr_swap (h it' hv)
  simp only [processAttrs, head?_swap]
  split
  · exact Prod.ext (hmk []) (tail_swap it)
  · rw [swap, hloop]
    simp only [Prod.map_fst, Prod.map_snd]
    split
    · rename_i hh
      rw [if_pos ((head?_swap _ _).1 hh)]
      exact Prod.ext (hmk _) (tail_swap _)
    · rename_i hh
      rw [if_neg (mt (head?_swap _ _).2 hh)]
      rfl

lemma processNamed_swap (delim : Char) (mk mk' : Str → List AttrTy → Ty)
    (hmk : ∀ n as, mk' (swap n) (as.map (Prod.map swap Ty.swapTree)) = (mk n as).swapTree)
    {it : Str} (h : ∀ it', Reader.Visits (atDelim delim) (processAttr process) (bodyAt it) it' →
      SwapsAt (readOptName it').2) :
    processNamed process (swapChar delim) mk' (swap it) =
      Prod.map Ty.swapTree swap (processNamed process delim mk it) := by
  have hne : ∀ c, (swapChar c != '=') = (c != '=') :=
    apply_swapChar (f := fun c => c != '=') rfl rfl
  have hskip : skipChar '?' (swap it) = swap (skipChar '?' it) := skipChar_swap '?' it
  have hbody : bodyAt (swap it) = swap (bodyAt it) := by
    rw [bodyAt, bodyAt, hskip, dropWhile_swap hne]
    exact skipChar_swap '=' _
  rw [processNamed, hskip, takeWhile_swap hne, hbody]
  exact processAttrs_swap delim (hmk _) h

lemma processArray_swap {it : Str} (h : ∀ it', (readStrNumber it).1 ≠ [] →
    Reader.Visits (atDelim ']') process (readStrNumber it).2 it' → SwapsAt it') :
    processArray process (swap it) = Prod.map Ty.swapTree swap (processArray process it) := by
  have hnum : readStrNumber (swap it) = Prod.map id swap (readStrNumber it) :=
    readStrNumberFrom_swap [] it
  simp only [processArray, hnum, Prod.map_fst, Prod.map_snd, id]
  by_cases hn : (readStrNumber it).1 = []
  · rw [if_pos hn, if_pos hn]
    rfl
  · have hloop : Reader.repeatUntil (atDelim ']') process (swap (readStrNumber it).2) =
        Prod.map (List.map Ty.swapTree) swap
          (Reader.repeatUntil (atDelim ']') process (readStrNumber it).2) :=
      Reader.repeatUntil_map swapChar Ty.swapTree rfl process_advances rfl
        process_advances (atDelim_swap ']') (readStrNumber it).2 fun it' hv => h it' hn hv
    rw [if_neg hn, if_neg hn, hloop]
    simp only [Prod.map_fst, Prod.map_snd]
    split
    · rename_i hh
      rw [if_pos ((head?_swap _ ']').1 hh)]
      refine Prod.ext ?_ (tail_swap _)
      cases hlast : (Reader.repeatUntil (atDelim ']') process (readStrNumber it).2).1.getLast? <;>
        simp [List.getLast?_map, hlast, Ty.swapTree]
    · rename_i hh
      rw [if_neg (mt (head?_swap _ ']').2 hh)]
      rfl

lemma processPointer_swap {it : Str} (h : it.head? ≠ some '?' → SwapsAt it) :
    processPointer process (swap it) = Prod.map Ty.swapTree swap (processPointer process it) := by
  have hhead : (swap it).head? = some '?' ↔ it.head? = some '?' := head?_swap it '?'
  by_cases hq : it.head? = some '?'
  · rw [processPointer_void hq, processPointer_void (hhead.2 hq), tail_swap]
    rfl
  · rw [processPointer_of_ne hq, processPointer_of_ne (mt hhead.1 hq), h hq]
    simp only [Prod.map_fst, Prod.map_snd, Ty.isNull_swapTree]
    split <;> rfl

lemma processObject_swap (it : Str) :
    processObject (swap it) = Prod.map Ty.swapTree swap (processObject it) := by
  have hhead : (swap it).head? = some '?' ↔ it.head? = some '?' := head?_swap it '?'
  rw [processObject, processObject]
  by_cases hq : it.head? = some '?'
  · rw [if_pos hq, if_pos (hhead.2 hq), tail_swap]
    rfl
  · rw [if_neg hq, if_neg (mt hhead.1 hq), readOptName_swap]
    rfl

lemma processBitfield_swap (it : Str) :
    processBitfield (swap it) = Prod.map Ty.swapTree swap (processBitfield it) := by
  have hnum : readStrNumber (swap it) = Prod.map id swap (readStrNumber it) :=
    readStrNumberFrom_swap [] it
  simp only [processBitfield, hnum, Prod.map_fst, Prod.map_snd, id]
  split <;> rfl

/-- A letter that encodes no type encodes none with its bracket exchanged. -/
lemma swapChar_notMem_typeCodes {c : Char} (hc : c ∉ typeCodes) : swapChar c ∉ typeCodes := by
  rcases swapChar_cases c with rfl | rfl | rfl | rfl | h
  · exact absurd (by decide) hc
  · exact absurd (by decide) hc
  · decide
  · decide
  · rwa [h]

lemma opaqueName_swap (delim : Char) (it : Str) :
    OpaqueName (swapChar delim) (swap it) ↔ OpaqueName delim it := by
  have hne : ∀ c, (swapChar c != '=' && swapChar c != swapChar delim) =
      (c != '=' && c != delim) := by
    intro c
    have heq : (swapChar c != '=') = (c != '=') :=
      apply_swapChar (f := fun c => c != '=') rfl rfl c
    rw [heq, Bool.eq_iff_iff]
    simp [swapChar_inj]
  have hskip : skipChar '?' (swap it) = swap (skipChar '?' it) := skipChar_swap '?' it
  rw [OpaqueName, OpaqueName, hskip,
    dropWhile_swap (p := fun c => c != '=' && c != swapChar delim) hne, head?_swap]

/-- The simulation: where no opaque structure or union is met, `process` decodes the
string with its brackets exchanged to the tree with its nodes exchanged. -/
lemma process_swap {it : Str}
    (h : ∀ it', Relation.ReflTransGen Calls it it' → ¬ OpaqueAt it') : SwapsAt it := by
  induction hn : it.length using Nat.strong_induction_on generalizing it with
  | _ n ih =>
      have hcalls : ∀ it', Calls it it' → SwapsAt it' := fun it' hc =>
        ih _ (hn ▸ hc.length_lt) (fun it'' hcs => h it'' (.head hc hcs)) rfl
      cases hcode : codeAt it with
      | nil =>
          have hswap : codeAt (swap it) = [] := by rw [codeAt_swap, hcode]; rfl
          rw [SwapsAt, process_of_codeAt_nil hcode, process_of_codeAt_nil hswap]
          rfl
      | cons c rest =>
          have hswap : codeAt (swap it) = swapChar c :: swap rest := by
            rw [codeAt_swap, hcode]; rfl
          have ho : ¬ OpaqueAt it := h it .refl
          rw [SwapsAt, process_of_codeAt hcode, process_of_codeAt hswap]
          -- all letters but the opening brackets are left alone
          cases codeView c with
          | primitive p =>
              have hp : swapChar p.code = p.code := by cases p <;> rfl
              rw [hp, processCode_code, processCode_code]
              rfl
          | cls | selector | unknown => rfl
          | array => exact processArray_swap fun it' hnum hv => hcalls it' (.array hcode hnum hv)
          | struct =>
              have hname : ¬ OpaqueName '}' rest := fun hn => ho ⟨rest, Or.inl ⟨hcode, hn⟩⟩
              rw [processCode_struct, processStructure_eq hname]
              exact processNamed_swap '}' .struct .union
                (fun n as => by rw [Ty.swapTree, Ty.swapAttrs_eq])
                fun it' hv => hcalls _ (.struct hcode hname hv)
          | union =>
              have hname : ¬ OpaqueName ')' rest := fun hn => ho ⟨rest, Or.inr ⟨hcode, hn⟩⟩
              have hname' : ¬ OpaqueName '}' (swap rest) := mt (opaqueName_swap ')' rest).1 hname
              rw [processCode_union, processUnion_eq]
              exact (processStructure_eq hname').trans
                (processNamed_swap ')' .union .struct
                  (fun n as => by rw [Ty.swapTree, Ty.swapAttrs_eq])
                  fun it' hv => hcalls _ (.union hcode hv))
          | bitField => exact processBitfield_swap rest
          | pointer => exact processPointer_swap fun hne => hcalls rest (.pointer hcode hne)
          | object => exact processObject_swap rest
          | other hc =>
              rw [processCode_other (swapChar_notMem_typeCodes hc), processCode_other hc]
              rfl

end ICDump
