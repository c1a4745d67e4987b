/-
The equations of the decoder.

`process` is tied by `Reader.fix`, whose equation asks that the body be local: it
must move the iterator forward and call itself on shorter strings only.  Both hold
because `processStep` takes a letter off before it calls anything back.  What is
left of the definition afterwards is `process_eq` and the fact that `process`
advances, which is what the loops need in order to be unfolded.

The cases of the `switch` are told apart by the view `CodeView`.
-/
import ICDump.Encoding.Decode

namespace ICDump

variable {proc proc' : Reader Char Ty}

/-! ### The iterator only moves forward -/

lemma skipDigits_suffix (it : Str) : skipDigits it <:+ it := List.dropWhile_suffix _

lemma skipChar_suffix (c : Char) (it : Str) : skipChar c it <:+ it := by
  cases it with
  | nil => exact List.suffix_rfl
  | cons d it =>
      rw [skipChar]
      split
      · exact List.suffix_cons d it
      · exact List.suffix_rfl

lemma readOptName_forward : readOptName.Forward := by
  intro it
  cases it with
  | nil => exact List.suffix_rfl
  | cons c it =>
      rw [readOptName]
      split
      · exact ((skipChar_suffix _ _).trans (List.dropWhile_suffix _)).trans
          (List.suffix_cons c it)
      · exact List.suffix_rfl

lemma readStrNumberFrom_forward (n : Str) : (readStrNumberFrom n).Forward := by
  intro it
  induction it generalizing n with
  | nil => exact List.suffix_rfl
  | cons c it ih =>
      rw [readStrNumberFrom]
      split
      · exact (ih _).trans (List.suffix_cons c it)
      · exact List.suffix_rfl

lemma processSpecifier_forward : processSpecifier.Forward := by
  intro it
  cases it with
  | nil => exact List.suffix_rfl
  | cons c it =>
      rw [processSpecifier]
      split
      · exact List.suffix_rfl
      · exact List.suffix_cons c it

lemma processSpecifiers_suffix (it : Str) : processSpecifiers it <:+ it := by
  induction it with
  | nil => exact List.suffix_rfl
  | cons c it ih =>
      rw [processSpecifiers]
      split
      · exact List.suffix_rfl
      · exact ih.trans (List.suffix_cons c it)

lemma processAttr_forward (hp : proc.Forward) : (processAttr proc).Forward :=
  fun it => (hp _).trans (readOptName_forward it)

lemma processAttrs_forward (hp : proc.Forward) (delim : Char) (mk : List AttrTy → Ty) :
    (processAttrs proc delim mk).Forward := by
  intro it
  have hloop := Reader.repeatUntil_forward (atDelim delim) (processAttr_forward hp) it
  simp only [processAttrs]
  split
  · exact List.tail_suffix it
  · split
    · exact (List.tail_suffix _).trans hloop
    · exact hloop

lemma processStructure_forward (hp : proc.Forward) : (processStructure proc).Forward := by
  intro it
  have hname := (List.dropWhile_suffix fun c => c != '=' && c != '}').trans
    (skipChar_suffix '?' it)
  simp only [processStructure]
  split
  · exact (List.tail_suffix _).trans hname
  · exact ((processAttrs_forward hp _ _ _).trans (skipChar_suffix _ _)).trans hname

lemma processUnion_forward (hp : proc.Forward) : (processUnion proc).Forward := fun it =>
  ((processAttrs_forward hp _ _ _).trans (skipChar_suffix _ _)).trans
    ((List.dropWhile_suffix _).trans (skipChar_suffix '?' it))

lemma processBitfield_forward : processBitfield.Forward := by
  intro it
  simp only [processBitfield]
  split <;> exact readStrNumberFrom_forward [] it

lemma processArray_forward (hp : proc.Forward) : (processArray proc).Forward := by
  intro it
  have hnum := readStrNumberFrom_forward [] it
  have hloop := Reader.repeatUntil_forward (atDelim ']') hp (readStrNumber it).2
  simp only [processArray]
  split
  · exact hnum
  · split
    · exact ((List.tail_suffix _).trans hloop).trans hnum
    · exact hloop.trans hnum

lemma processPointer_void {it : Str} (h : it.head? = some '?') :
    processPointer proc it = (.pointer (.primitive .void), it.tail) := if_pos h

/-- What a pointer points to is read by `process`, and a null result is passed on. -/
lemma processPointer_of_ne {it : Str} (h : it.head? ≠ some '?') :
    processPointer proc it =
      (if (proc it).1.isNull then .null else .pointer (proc it).1, (proc it).2) := by
  rw [processPointer, if_neg h]
  split
  · rename_i heq
    simp [heq]
  · rename_i t it' hne heq
    have ht : t.isNull = false := Ty.isNull_eq_false_iff.2 hne
    simp [heq, ht]

lemma processPointer_forward (hp : proc.Forward) : (processPointer proc).Forward := by
  intro it
  by_cases h : it.head? = some '?'
  · rw [processPointer_void h]
    exact List.tail_suffix it
  · rw [processPointer_of_ne h]
    exact hp it

lemma processObject_forward : processObject.Forward := by
  intro it
  rw [processObject]
  split
  · exact List.tail_suffix it
  · exact readOptName_forward it

/-! ### The letters that `process` tells apart -/

/-- The letter that encodes a primitive type. -/
def Primitive.code : Primitive → Char
  | .char => 'c'
  | .int => 'i'
  | .short => 's'
  | .long => 'l'
  | .longLong => 'q'
  | .unsignedChar => 'C'
  | .unsignedInt => 'I'
  | .unsignedShort => 'S'
  | .unsignedLong => 'L'
  | .unsignedLongLong => 'Q'
  | .float => 'f'
  | .double => 'd'
  | .bool => 'B'
  | .void => 'v'
  | .cstring => '*'

@[simp] lemma processCode_code (p : Primitive) (it : Str) :
    processCode proc p.code it = (.primitive p, it) := by
  cases p <;> rfl

/-- The letters for which the `switch` of `process` has a case. -/
def typeCodes : Str :=
  ['c', 'i', 's', 'l', 'q', 'C', 'I', 'S', 'L', 'Q', 'f', 'd', 'B', 'v', '*', '#', ':', '[', '{',
    '(', 'b', '?', '^', '@']

lemma processCode_other {c : Char} (hc : c ∉ typeCodes) (it : Str) :
    processCode proc c it = (.null, it) := by
  unfold processCode
  split <;> first | rfl | exact absurd (by decide) hc

/-- A letter is one of the codes of the `switch` of `process`, or it is rejected. -/
inductive CodeView : Char → Prop
  | primitive (p : Primitive) : CodeView p.code
  | cls : CodeView '#'
  | selector : CodeView ':'
  | unknown : CodeView '?'
  | array : CodeView '['
  | struct : CodeView '{'
  | union : CodeView '('
  | bitField : CodeView 'b'
  | pointer : CodeView '^'
  | object : CodeView '@'
  | other {c : Char} (hc : c ∉ typeCodes) : CodeView c

lemma codeView (c : Char) : CodeView c := by
  have hcodes : ∀ c ∈ typeCodes, CodeView c := by
    simp only [typeCodes, List.forall_mem_cons]
    exact ⟨.primitive .char, .primitive .int, .primitive .short, .primitive .long,
      .primitive .longLong, .primitive .unsignedChar, .primitive .unsignedInt,
      .primitive .unsignedShort, .primitive .unsignedLong, .primitive .unsignedLongLong,
      .primitive .float, .primitive .double, .primitive .bool, .primitive .void,
      .primitive .cstring, .cls, .selector, .array, .struct, .union, .bitField, .unknown,
      .pointer, .object, List.forall_mem_nil _⟩
  by_cases hc : c ∈ typeCodes
  · exact hcodes c hc
  · exact .other hc

lemma processCode_array (it : Str) : processCode proc '[' it = processArray proc it := rfl

lemma processCode_struct (it : Str) : processCode proc '{' it = processStructure proc it := rfl

lemma processCode_union (it : Str) : processCode proc '(' it = processUnion proc it := rfl

lemma processCode_bitField (it : Str) : processCode proc 'b' it = processBitfield it := rfl

lemma processCode_pointer (it : Str) : processCode proc '^' it = processPointer proc it := rfl

lemma processCode_object (it : Str) : processCode proc '@' it = processObject it := rfl

lemma processCode_forward (hp : proc.Forward) (c : Char) : (processCode proc c).Forward := by
  intro it
  cases codeView c with
  | primitive p => rw [processCode_code]
  | cls | selector | unknown => exact List.suffix_rfl
  | array => exact processArray_forward hp it
  | struct => exact processStructure_forward hp it
  | union => exact processUnion_forward hp it
  | bitField => exact processBitfield_forward it
  | pointer => exact processPointer_forward hp it
  | object => exact processObject_forward it
  | other hc => rw [processCode_other hc]

/-! ### `process` looks at shorter strings only -/

lemma processAttrs_congr (hp : proc.Forward) (delim : Char) (mk : List AttrTy → Ty) (it : Str)
    (h : ∀ it', it' <:+ it → proc it' = proc' it') :
    processAttrs proc delim mk it = processAttrs proc' delim mk it := by
  have hloop : Reader.repeatUntil (atDelim delim) (processAttr proc) it =
      Reader.repeatUntil (atDelim delim) (processAttr proc') it := by
    refine Reader.repeatUntil_congr (processAttr_forward hp) fun it' hit => ?_
    simp only [processAttr, h _ ((readOptName_forward it').trans hit)]
  simp only [processAttrs, hloop]

lemma processCode_congr (hp : proc.Forward) (c : Char) {it : Str}
    (h : ∀ it', it' <:+ it → proc it' = proc' it') :
    processCode proc c it = processCode proc' c it := by
  cases codeView c with
  | primitive p => rw [processCode_code, processCode_code]
  | cls | selector | unknown | bitField | object => rfl
  | array =>
      have hloop : Reader.repeatUntil (atDelim ']') proc (readStrNumber it).2 =
          Reader.repeatUntil (atDelim ']') proc' (readStrNumber it).2 :=
        Reader.repeatUntil_congr hp fun it' hit =>
          h it' (hit.trans (readStrNumberFrom_forward [] it))
      simp only [processCode_array, processArray, hloop]
  | struct =>
      have hattrs := processAttrs_congr hp '}'
        (.struct ((skipChar '?' it).takeWhile fun c => c != '=' && c != '}'))
        (skipChar '=' ((skipChar '?' it).dropWhile fun c => c != '=' && c != '}'))
        fun it' hit => h it' (hit.trans ((skipChar_suffix _ _).trans
          ((List.dropWhile_suffix _).trans (skipChar_suffix _ _))))
      simp only [processCode_struct, processStructure, hattrs]
  | union =>
      exact processAttrs_congr hp ')' _ _ fun it' hit => h it' (hit.trans
        ((skipChar_suffix _ _).trans ((List.dropWhile_suffix _).trans (skipChar_suffix _ _))))
  | pointer => simp only [processCode_pointer, processPointer, h it List.suffix_rfl]
  | other hc => rw [processCode_other hc, processCode_other hc]

/-- What is left once the digits and the qualifiers are skipped. -/
lemma processStep_eq (proc : Reader Char Ty) (it : Str) :
    processSpecifiers (skipDigits it) = [] ∧ processStep proc it = (.null, []) ∨
      ∃ c it', processSpecifiers (skipDigits it) = c :: it' ∧ it'.length < it.length ∧
        it' <:+ it ∧ processStep proc it = processCode proc c it' := by
  have hsuf := (processSpecifiers_suffix (skipDigits it)).trans (skipDigits_suffix it)
  rw [processStep]
  cases hcode : processSpecifiers (skipDigits it) with
  | nil => exact Or.inl ⟨rfl, rfl⟩
  | cons c it' =>
      rw [hcode] at hsuf
      have hlen := hsuf.length_le
      rw [List.length_cons] at hlen
      exact Or.inr ⟨c, it', rfl, by omega, (List.suffix_cons c it').trans hsuf, rfl⟩

lemma processStep_forward (hp : proc.Forward) : (processStep proc).Forward := by
  intro it
  rcases processStep_eq proc it with ⟨-, h⟩ | ⟨c, it', -, -, hsuf, h⟩
  · rw [h]
    exact List.nil_suffix
  · rw [h]
    exact (processCode_forward hp c it').trans hsuf

lemma processStep_local : Reader.Local processStep where
  forward := processStep_forward
  congr := by
    intro p q hp hq it h
    rcases processStep_eq p it with ⟨hnil, hp'⟩ | ⟨c, it', hcode, hlt, hsuf, hp'⟩
    · rw [hp', processStep, hnil]
    · rw [hp', processStep, hcode]
      exact processCode_congr hp c fun it'' hit => h it'' (by have := hit.length_le; omega)

/-- **The equation of `process`.** -/
theorem process_eq (it : Str) : process it = processStep process it :=
  congrFun (Reader.fix_eq processStep_local) it

lemma process_forward : process.Forward := Reader.fix_forward processStep_local

/-- Called before the end of the string, `process` consumes a letter. -/
lemma process_advances : process.Advances := by
  intro it hne
  rw [process_eq]
  rcases processStep_eq process it with ⟨-, h⟩ | ⟨c, it', -, hlt, -, h⟩
  · rw [h]
    exact List.length_pos_of_ne_nil hne
  · rw [h]
    exact (processCode_forward process_forward c it').length_le.trans_lt hlt

lemma process_nil : process [] = (.null, []) := by
  rw [process_eq]
  rfl

/-! ### What `process` reads first -/

/-- What is left of the string when `process` looks at the code of a type. -/
def codeAt (it : Str) : Str := processSpecifiers (skipDigits it)

lemma processSpecifiers_eq (it : Str) :
    processSpecifiers it = it.dropWhile fun c => specifier c ≠ .unknown := by
  induction it with
  | nil => rfl
  | cons c it ih =>
      rw [processSpecifiers, List.dropWhile_cons]
      split <;> simp_all

lemma codeAt_suffix (it : Str) : codeAt it <:+ it :=
  (processSpecifiers_suffix _).trans (skipDigits_suffix it)

lemma process_of_codeAt {c : Char} {it rest : Str} (h : codeAt it = c :: rest) :
    process it = processCode process c rest := by
  rw [process_eq, processStep, ← codeAt, h]

lemma process_of_codeAt_nil {it : Str} (h : codeAt it = []) : process it = (.null, []) := by
  rw [process_eq, processStep, ← codeAt, h]

lemma length_lt_of_codeAt {c : Char} {it rest : Str} (h : codeAt it = c :: rest) :
    rest.length < it.length := by
  have hlen := (codeAt_suffix it).length_le
  rw [h, List.length_cons] at hlen
  omega

/-! ### Loops advance -/

/-- A reader that skips something and then calls `process` advances. -/
lemma advances_of_process {β : Type*} {p : Reader Char β} {skip : Str → Str}
    (hskip : ∀ it, skip it <:+ it) (hp : ∀ it, (p it).2 = (process (skip it)).2) :
    p.Advances := by
  intro it hne
  rw [hp]
  by_cases h : skip it = []
  · rw [h, process_nil]
    exact List.length_pos_of_ne_nil hne
  · exact (process_advances _ h).trans_le (hskip it).length_le

lemma processAttr_advances : (processAttr process).Advances :=
  advances_of_process readOptName_forward fun _ => rfl

lemma decodeStep_advances : decodeStep.Advances :=
  advances_of_process processSpecifier_forward fun _ => rfl

lemma decodeStep_forward : decodeStep.Forward :=
  fun it => (process_forward _).trans (processSpecifier_forward it)

lemma decodeType_nil : decodeType [] = [] := rfl

/-- The loop of `decode_type`, once through. -/
lemma decodeType_step (it : Str) :
    decodeType it =
      [(decodeStep it).1].filter (fun t => !t.isNull) ++ decodeType (decodeStep it).2 := by
  by_cases hne : it = []
  · subst hne
    rfl
  · have hstop : List.isEmpty it = false := by simpa using hne
    rw [decodeType, Reader.repeatUntil_of_not_stop rfl decodeStep_advances hstop, decodeType,
      ← List.filter_append, List.singleton_append]

lemma decodeType_of_null {it rest : Str} (h : decodeStep it = (.null, rest)) :
    decodeType it = decodeType rest := by
  rw [decodeType_step it, h]
  rfl

lemma decodeType_of_ne_null {it rest : Str} {t : Ty} (h : decodeStep it = (t, rest))
    (ht : t ≠ .null) : decodeType it = t :: decodeType rest := by
  rw [decodeType_step it, h, List.filter_cons_of_pos (by simpa using ht)]
  rfl

/-! ### Names of structures and unions -/

/-- Behind an opening bracket, the name is followed by the closing bracket and not by `=`. -/
def OpaqueName (delim : Char) (it : Str) : Prop :=
  ((skipChar '?' it).dropWhile fun c => c != '=' && c != delim).head? = some delim

/-- Where the loop on the fields of a structure or union starts, past the opening bracket. -/
def bodyAt (it : Str) : Str := skipChar '=' ((skipChar '?' it).dropWhile (· != '='))

/-- The common part of `process_structure` and `process_union`: the name runs to the next
`=`. -/
def processNamed (proc : Reader Char Ty) (delim : Char) (mk : Str → List AttrTy → Ty) :
    Reader Char Ty := fun it =>
  processAttrs proc delim (mk ((skipChar '?' it).takeWhile (· != '='))) (bodyAt it)

lemma processUnion_eq (proc : Reader Char Ty) :
    processUnion proc = processNamed proc ')' .union := rfl

/-- Unless the closing bracket comes first, looking for it changes nothing. -/
lemma span_of_not_opaqueName {delim : Char} {it : Str}
    (h : (it.dropWhile fun c => c != '=' && c != delim).head? ≠ some delim) :
    (it.dropWhile fun c => c != '=' && c != delim) = it.dropWhile (· != '=') ∧
      (it.takeWhile fun c => c != '=' && c != delim) = it.takeWhile (· != '=') := by
  induction it with
  | nil => exact ⟨rfl, rfl⟩
  | cons c it ih =>
      by_cases heq : c = '='
      · simp [heq]
      · by_cases hd : c = delim
        · simp [hd] at h
        · have hit : (it.dropWhile fun c => c != '=' && c != delim).head? ≠ some delim := by
            simpa [heq, hd] using h
          simp [heq, hd, ih hit]

lemma processStructure_eq {proc : Reader Char Ty} {it : Str} (h : ¬ OpaqueName '}' it) :
    processStructure proc it = processNamed proc '}' .struct it := by
  obtain ⟨hdrop, htake⟩ := span_of_not_opaqueName h
  rw [OpaqueName, hdrop] at h
  simp only [processStructure, hdrop, htake, if_neg h]
  rfl

lemma bodyAt_suffix (it : Str) : bodyAt it <:+ it :=
  (skipChar_suffix _ _).trans ((List.dropWhile_suffix _).trans (skipChar_suffix _ _))

/-! ### What is rejected -/

/-- The dimension of an array and the width of a bit field are read digit by digit. -/
lemma readStrNumber_snd (it : Str) : (readStrNumber it).2 = skipDigits it := by
  have hfrom : ∀ n, (readStrNumberFrom n it).2 = skipDigits it := by
    induction it with
    | nil => exact fun _ => rfl
    | cons c it ih =>
        intro n
        rw [readStrNumberFrom, skipDigits, List.dropWhile_cons]
        split
        · exact ih [c]
        · rfl
  exact hfrom []

lemma readStrNumberFrom_ne_nil {n : Str} (hn : n ≠ []) (it : Str) :
    (readStrNumberFrom n it).1 ≠ [] := by
  induction it generalizing n with
  | nil => exact hn
  | cons c it ih =>
      rw [readStrNumberFrom]
      split
      · exact ih (List.cons_ne_nil c [])
      · exact hn

/-- Without a digit, no number is read. -/
lemma readStrNumber_of_nil {it : Str} (h : (readStrNumber it).1 = []) :
    (readStrNumber it).2 = it := by
  cases it with
  | nil => rfl
  | cons c it =>
      rw [readStrNumber, readStrNumberFrom] at h ⊢
      split at h
      · exact absurd h (readStrNumberFrom_ne_nil (List.cons_ne_nil c []) it)
      · rename_i hc
        rw [if_neg hc]

lemma processArray_of_nil {proc : Reader Char Ty} {it : Str} (hnum : (readStrNumber it).1 = []) :
    processArray proc it = (.null, it) := by
  simp only [processArray, if_pos hnum, readStrNumber_of_nil hnum]

lemma processBitfield_of_nil {it : Str} (hnum : (readStrNumber it).1 = []) :
    processBitfield it = (.null, it) := by
  simp only [processBitfield, if_pos hnum, readStrNumber_of_nil hnum]

lemma atDelim_of_head? {c : Char} {it : Str} (h : it.head? = some c) : atDelim c it = true := by
  cases it with
  | nil => exact absurd h (by simp)
  | cons d it => simpa [atDelim] using h

lemma eq_nil_of_atDelim {c : Char} {it : Str} (h : atDelim c it = true) (hc : it.head? ≠ some c) :
    it = [] := by
  cases it with
  | nil => rfl
  | cons d it =>
      obtain rfl : d = c := by simpa [atDelim] using h
      exact absurd rfl hc

/-- A body without fields is no special case. -/
lemma processAttrs_eq (proc : Reader Char Ty) (delim : Char) (mk : List AttrTy → Ty) (it : Str) :
    processAttrs proc delim mk it =
      (if (Reader.repeatUntil (atDelim delim) (processAttr proc) it).2.head? = some delim then
        (mk (Reader.repeatUntil (atDelim delim) (processAttr proc) it).1,
          (Reader.repeatUntil (atDelim delim) (processAttr proc) it).2.tail)
      else (.null, (Reader.repeatUntil (atDelim delim) (processAttr proc) it).2)) := by
  by_cases h : it.head? = some delim
  · rw [Reader.repeatUntil_of_stop (atDelim_of_head? h), processAttrs, if_pos h, if_pos h]
  · rw [processAttrs, if_neg h]

lemma processAttrs_cases (proc : Reader Char Ty) (delim : Char) (mk : List AttrTy → Ty)
    (it : Str) :
    (processAttrs proc delim mk it).1 = .null ∨
      ∃ as, (processAttrs proc delim mk it).1 = mk as := by
  rw [processAttrs_eq]
  split
  · exact Or.inr ⟨_, rfl⟩
  · exact Or.inl rfl

/-- A structure or union that is rejected is read to the end of the string. -/
lemma processAttrs_null {delim : Char} {mk : List AttrTy → Ty} (hmk : ∀ as, mk as ≠ .null)
    {it : Str} (h : (processAttrs process delim mk it).1 = .null) :
    (processAttrs process delim mk it).2 = [] := by
  rw [processAttrs_eq] at h ⊢
  split at h
  · exact absurd h (hmk _)
  · rename_i hend
    rw [if_neg hend]
    exact eq_nil_of_atDelim (Reader.stop_repeatUntil rfl processAttr_advances _) hend

end ICDump
