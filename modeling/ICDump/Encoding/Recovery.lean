/-
What the decoder finds in an arbitrary string.

The decoder accepts every string: it goes on after a letter that encodes no type, and stops in
the middle of a bracket only at the end of the string.  `Part` is the tree of all that it
finds, rejected letters and unfinished brackets included, and `Reads it p rest` gives the rules
by which the string is split: at `it` there is the part `p`, and `rest` comes after it.  The
rules name the letters and the tokens; neither `process` nor its `switch` occurs in them.

Every cursor has a part (`exists_reads`), and `process` makes the type of that part and leaves
what comes after it (`Reads.process_eq`).  So what the decoder does to a string can be said in
terms of the parts of the string (`Splits`).
-/
import ICDump.Library.Repeats
import ICDump.Encoding.Equations

namespace ICDump

/-! ### Parts -/

/-- The two kinds of types with fields. -/
inductive Aggregate
  | struct | union
deriving DecidableEq, Repr

namespace Aggregate

/-- The opening bracket. -/
def opening : Aggregate → Char
  | struct => '{'
  | union => '('

/-- The closing bracket. -/
def closing : Aggregate → Char
  | struct => '}'
  | union => ')'

/-- The type with the given name and fields. -/
def type : Aggregate → Str → List AttrTy → Ty
  | struct => .struct
  | union => .union

end Aggregate

/-- What the decoder finds at a cursor. -/
inductive Part
  /-- A letter that encodes no type, or the end of the string. -/
  | rejected
  /-- A type without parts. -/
  | leaf (t : Ty)
  | pointer (p : Part)
  /-- An array with all the elements between its brackets.  It is not `closed` when the string
  ends before the closing bracket. -/
  | array (dim : ℕ) (closed : Bool) (elements : List Part)
  | aggregate (tag : Aggregate) (name : Str) (closed : Bool) (fields : List (Str × Part))

namespace Part

mutual

/-- The type that is made of a part. -/
def type : Part → Ty
  | rejected => .null
  | leaf t => t
  | pointer p => if p.type.isNull then .null else .pointer p.type
  -- the last element overwrites the others
  | array dim closed ps => if closed then .array dim ((types ps).getLast?.getD .null) else .null
  | aggregate tag name closed fs => if closed then tag.type name (attributes fs) else .null

/-- The types of the elements of an array. -/
def types : List Part → List Ty
  | [] => []
  | p :: ps => p.type :: types ps

/-- The attributes of a structure or union. -/
def attributes : List (Str × Part) → List AttrTy
  | [] => []
  | (n, p) :: fs => (n, p.type) :: attributes fs

end

lemma types_eq (ps : List Part) : types ps = ps.map type := by
  induction ps with
  | nil => rfl
  | cons p ps ih => rw [types, ih, List.map_cons]

lemma attributes_eq (fs : List (Str × Part)) : attributes fs = fs.map fun f => (f.1, f.2.type) := by
  induction fs with
  | nil => rfl
  | cons f fs ih => rw [attributes, ih, List.map_cons]

end Part

/-! ### The rules -/

/-- `LeafAt c it t rest`: the letter `c`, with `it` behind it, encodes the type `t`, which has no
parts, and `rest` is left. -/
inductive LeafAt : Char → Str → Ty → Str → Prop
  | primitive (p : Primitive) (it : Str) : LeafAt p.code it (.primitive p) it
  | cls (it : Str) : LeafAt '#' it .cls it
  | selector (it : Str) : LeafAt ':' it .selector it
  | unknown (it : Str) : LeafAt '?' it .unknown it
  | bitField {it : Str} (hnum : (readStrNumber it).1 ≠ []) :
      LeafAt 'b' it (.bitField (strtoull (readStrNumber it).1)) (readStrNumber it).2
  | voidPointer (it : Str) : LeafAt '^' ('?' :: it) (.pointer (.primitive .void)) it
  | block (it : Str) : LeafAt '@' ('?' :: it) .block it
  | object {it : Str} (hq : it.head? ≠ some '?') :
      LeafAt '@' it (.object (readOptName it).1) (readOptName it).2
  | opaqueStruct {it : Str} (h : OpaqueName '}' it) :
      LeafAt '{' it (.struct ((skipChar '?' it).takeWhile fun c => c != '=' && c != '}') [])
        ((skipChar '?' it).dropWhile fun c => c != '=' && c != '}').tail

/-- The letter `c`, with `it` behind it, encodes no type. -/
inductive RejectedAt : Char → Str → Prop
  | unsupported {c : Char} {it : Str} (hc : c ∉ typeCodes) : RejectedAt c it
  | noWidth {it : Str} (hnum : (readStrNumber it).1 = []) : RejectedAt 'b' it
  | noDimension {it : Str} (hnum : (readStrNumber it).1 = []) : RejectedAt '[' it

/-- Behind the fields or elements, which end at the first cursor, there is the closing bracket,
or the end of the string. -/
inductive Closes (delim : Char) : Bool → Str → Str → Prop
  | closed (rest : Str) : Closes delim true (delim :: rest) rest
  | toEnd : Closes delim false [] []

/-- The name of a structure or union, up to the next `=`. -/
def nameAt (it : Str) : Str := (skipChar '?' it).takeWhile (· != '=')

mutual

/-- `Reads it p rest`: the part that is found at `it` is `p`, and `rest` is left. -/
inductive Reads : Str → Part → Str → Prop
  | nothing {it : Str} (hc : codeAt it = []) : Reads it .rejected []
  | rejected {it rest : Str} {c : Char} (hc : codeAt it = c :: rest) (h : RejectedAt c rest) :
      Reads it .rejected rest
  | leaf {it rest rest' : Str} {c : Char} {t : Ty} (hc : codeAt it = c :: rest)
      (h : LeafAt c rest t rest') : Reads it (.leaf t) rest'
  | pointer {it rest rest' : Str} {p : Part} (hc : codeAt it = '^' :: rest)
      (hv : rest.head? ≠ some '?') (h : Reads rest p rest') : Reads it (.pointer p) rest'
  | array {it rest it' rest' : Str} {ps : List Part} {closed : Bool} (hc : codeAt it = '[' :: rest)
      (hnum : (readStrNumber rest).1 ≠ [])
      (h : Repeats Reads (readStrNumber rest).2 (atDelim ']') ps it')
      (hend : Closes ']' closed it' rest') :
      Reads it (.array (strtoull (readStrNumber rest).1) closed ps) rest'
  | aggregate {it rest it' rest' : Str} {tag : Aggregate} {fs : List (Str × Part)} {closed : Bool}
      (hc : codeAt it = tag.opening :: rest) (ho : tag = .struct → ¬ OpaqueName '}' rest)
      (h : Repeats ReadsField (bodyAt rest) (atDelim tag.closing) fs it')
      (hend : Closes tag.closing closed it' rest') :
      Reads it (.aggregate tag (nameAt rest) closed fs) rest'

/-- A field of a structure or union: a name, which may be missing, and a part. -/
inductive ReadsField : Str → Str × Part → Str → Prop
  | mk {it rest : Str} {p : Part} (h : Reads (readOptName it).2 p rest) :
      ReadsField it ((readOptName it).1, p) rest

end

/-- A field has the property `P` when its part has it behind the name. -/
def FieldOf (P : Str → Part → Str → Prop) (it : Str) (f : Str × Part) (rest : Str) : Prop :=
  f.1 = (readOptName it).1 ∧ P (readOptName it).2 f.2 rest

/-- The induction rule of `Reads`, with the property of every element and field of a loop. -/
theorem Reads.induct {P : Str → Part → Str → Prop}
    (nothing : ∀ {it}, codeAt it = [] → P it .rejected [])
    (rejected : ∀ {it rest c}, codeAt it = c :: rest → RejectedAt c rest → P it .rejected rest)
    (leaf : ∀ {it rest rest' c t}, codeAt it = c :: rest → LeafAt c rest t rest' →
      P it (.leaf t) rest')
    (pointer : ∀ {it rest rest' p}, codeAt it = '^' :: rest → rest.head? ≠ some '?' →
      P rest p rest' → P it (.pointer p) rest')
    (array : ∀ {it rest it' rest' ps closed}, codeAt it = '[' :: rest →
      (readStrNumber rest).1 ≠ [] → Repeats P (readStrNumber rest).2 (atDelim ']') ps it' →
      Closes ']' closed it' rest' → P it (.array (strtoull (readStrNumber rest).1) closed ps) rest')
    (aggregate : ∀ {it rest it' rest' tag fs closed}, codeAt it = Aggregate.opening tag :: rest →
      (tag = .struct → ¬ OpaqueName '}' rest) →
      Repeats (FieldOf P) (bodyAt rest) (atDelim tag.closing) fs it' →
      Closes tag.closing closed it' rest' → P it (.aggregate tag (nameAt rest) closed fs) rest')
    {it : Str} {p : Part} {rest : Str} (h : Reads it p rest) : P it p rest :=
  @Reads.rec (fun it p rest _ => P it p rest)
    (fun it f rest _ => FieldOf P it f rest)
    (fun it stop ps rest _ => Repeats P it stop ps rest)
    (fun it stop fs rest _ => Repeats (FieldOf P) it stop fs rest)
    nothing rejected leaf (fun hc hv _ ih => pointer hc hv ih)
    (fun hc hnum _ hend ih => array hc hnum ih hend)
    (fun hc ho _ hend ih => aggregate hc ho ih hend)
    (fun _ ih => ⟨rfl, ih⟩) .done (fun hs _ _ ih ihs => .next hs ih ihs) .done
    (fun hs _ _ ih ihs => .next hs ih ihs) it p rest h

/-- `Splits s ps`: decoding the string `s` finds the parts `ps` in it, one after the other.  In
front of each, the loop of `decode_type` skips a qualifier. -/
def Splits (s : Str) (ps : List Part) : Prop :=
  Repeats (fun it => Reads (processSpecifier it).2) s List.isEmpty ps []

/-! ### The decoder follows the rules -/

variable {proc : Reader Char Ty} {it rest : Str} {p : Part} {c : Char} {t : Ty}

lemma LeafAt.processCode_eq (h : LeafAt c it t rest) : processCode proc c it = (t, rest) := by
  cases h with
  | primitive p => exact processCode_code p it
  | cls | selector | unknown | voidPointer | block => rfl
  | bitField hnum => rw [processCode_bitField, processBitfield, if_neg hnum]
  | object hq => simp only [processCode_object, processObject, if_neg hq]
  | opaqueStruct h =>
      have hopen : ((skipChar '?' it).dropWhile fun c => c != '=' && c != '}').head? = some '}' := h
      simp only [processCode_struct, processStructure, if_pos hopen]

lemma LeafAt.ne_null (h : LeafAt c it t rest) : t ≠ .null := by
  cases h <;> exact Ty.noConfusion

lemma RejectedAt.processCode_eq (h : RejectedAt c it) : processCode proc c it = (.null, it) := by
  cases h with
  | unsupported hc => exact processCode_other hc it
  | noWidth hnum => exact processBitfield_of_nil hnum
  | noDimension hnum => exact processArray_of_nil hnum

/-- The case of a bracket that opens a structure with fields, or a union. -/
lemma processCode_aggregate {tag : Aggregate} (ho : tag = .struct → ¬ OpaqueName '}' it) :
    processCode proc tag.opening it = processNamed proc tag.closing tag.type it := by
  cases tag with
  | struct => exact processStructure_eq (ho rfl)
  | union => rfl

lemma Closes.head?_eq {delim : Char} {closed : Bool} (h : Closes delim closed it rest) :
    (it.head? = some delim ↔ closed = true) ∧ rest = it.tail := by
  cases h with
  | closed rest => simp
  | toEnd => simp

lemma Closes.suffix {delim : Char} {closed : Bool} (h : Closes delim closed it rest) :
    rest <:+ it := by
  rw [h.head?_eq.2]
  exact List.tail_suffix it

lemma exists_closes {delim : Char} (h : atDelim delim it = true) :
    ∃ closed rest, Closes delim closed it rest := by
  cases it with
  | nil => exact ⟨false, [], .toEnd⟩
  | cons d it =>
      obtain rfl : d = delim := by simpa [atDelim] using h
      exact ⟨true, it, .closed it⟩

/-- **`process` follows the rules**: it makes the type of the part that it finds, and leaves what
comes after it. -/
theorem Reads.process_eq (h : Reads it p rest) : process it = (p.type, rest) := by
  refine Reads.induct (P := fun it p rest => process it = (p.type, rest)) ?_ ?_ ?_ ?_ ?_ ?_ h
  · exact fun hc => process_of_codeAt_nil hc
  · exact fun hc hr => (process_of_codeAt hc).trans hr.processCode_eq
  · exact fun hc hl => (process_of_codeAt hc).trans hl.processCode_eq
  · intro it rest rest' p hc hv ih
    rw [process_of_codeAt hc, processCode_pointer, processPointer_of_ne hv, ih]
    rfl
  · intro it rest it' rest' ps closed hc hnum hloop hend
    obtain ⟨hhead, rfl⟩ := hend.head?_eq
    have heq := hloop.repeatUntil_eq (f := Part.type) rfl process_advances fun _ _ _ h => h
    rw [process_of_codeAt hc, processCode_array]
    simp only [processArray, if_neg hnum, heq, hhead, Part.type, Part.types_eq]
    cases hend <;> rfl
  · intro it rest it' rest' tag fs closed hc ho hloop hend
    obtain ⟨hhead, rfl⟩ := hend.head?_eq
    have heq := hloop.repeatUntil_eq (f := fun f : Str × Part => (f.1, f.2.type)) rfl
      processAttr_advances fun it f rest h => by rw [processAttr, h.2, h.1]
    rw [process_of_codeAt hc, processCode_aggregate ho, processNamed, processAttrs_eq]
    simp only [heq, hhead, Part.type, Part.attributes_eq]
    cases hend <;> rfl

lemma Reads.process_snd (h : Reads it p rest) : (process it).2 = rest := by
  rw [h.process_eq]

lemma ReadsField.processAttr_eq {f : Str × Part} (h : ReadsField it f rest) :
    processAttr process it = ((f.1, f.2.type), rest) := by
  cases h with
  | mk h => rw [processAttr, h.process_eq]

lemma ReadsField.processAttr_snd {f : Str × Part} (h : ReadsField it f rest) :
    (processAttr process it).2 = rest := by
  rw [h.processAttr_eq]

/-- What a part takes of the string. -/
lemma Reads.length_lt (h : Reads it p rest) (hne : it ≠ []) : rest.length < it.length := by
  have hlt := process_advances it hne
  rwa [h.process_eq] at hlt

lemma ReadsField.length_lt {f : Str × Part} (h : ReadsField it f rest) (hne : it ≠ []) :
    rest.length < it.length := by
  have hlt := processAttr_advances it hne
  rwa [h.processAttr_eq] at hlt

/-- What the loop of `decode_type` takes of the string for a part. -/
lemma Reads.length_lt_of_specifier (h : Reads (processSpecifier it).2 p rest) (hne : it ≠ []) :
    rest.length < it.length := by
  have hlt := decodeStep_advances it hne
  rwa [decodeStep, h.process_eq] at hlt

/-! ### Every cursor has a part -/

/-- What the `switch` of `process` finds, if there is a part at every shorter string. -/
lemma exists_reads_of_codeAt (hc : codeAt it = c :: rest)
    (ih : ∀ it', it'.length ≤ rest.length → ∃ p rest', Reads it' p rest') :
    ∃ p rest', Reads it p rest' := by
  have hnumber := (readStrNumberFrom_forward [] rest).length_le
  have hfields : ∀ tag : Aggregate, codeAt it = tag.opening :: rest →
      (tag = .struct → ¬ OpaqueName '}' rest) → ∃ p rest', Reads it p rest' := by
    intro tag htag ho
    obtain ⟨fs, it', hloop⟩ : ∃ fs it',
        Repeats ReadsField (bodyAt rest) (atDelim tag.closing) fs it' :=
      Repeats.exists_of_advances rfl fun it' hle hne => by
        obtain ⟨p, rest', h⟩ := ih (readOptName it').2
          ((readOptName_forward it').length_le.trans (hle.trans (bodyAt_suffix rest).length_le))
        exact ⟨_, rest', .mk h, (ReadsField.mk h).length_lt hne⟩
    obtain ⟨closed, rest', hend⟩ := exists_closes hloop.stop_eq
    exact ⟨_, rest', .aggregate htag ho hloop hend⟩
  cases codeView c with
  | primitive p => exact ⟨_, _, .leaf hc (.primitive p rest)⟩
  | cls => exact ⟨_, _, .leaf hc (.cls rest)⟩
  | selector => exact ⟨_, _, .leaf hc (.selector rest)⟩
  | unknown => exact ⟨_, _, .leaf hc (.unknown rest)⟩
  | other h => exact ⟨_, _, .rejected hc (.unsupported h)⟩
  | object =>
      by_cases hq : rest.head? = some '?'
      · obtain ⟨rest', rfl⟩ := List.head?_eq_some_iff.1 hq
        exact ⟨_, _, .leaf hc (.block rest')⟩
      · exact ⟨_, _, .leaf hc (.object hq)⟩
  | bitField =>
      by_cases hnum : (readStrNumber rest).1 = []
      · exact ⟨_, _, .rejected hc (.noWidth hnum)⟩
      · exact ⟨_, _, .leaf hc (.bitField hnum)⟩
  | pointer =>
      by_cases hv : rest.head? = some '?'
      · obtain ⟨rest', rfl⟩ := List.head?_eq_some_iff.1 hv
        exact ⟨_, _, .leaf hc (.voidPointer rest')⟩
      · obtain ⟨p, rest', h⟩ := ih rest le_rfl
        exact ⟨_, _, .pointer hc hv h⟩
  | array =>
      by_cases hnum : (readStrNumber rest).1 = []
      · exact ⟨_, _, .rejected hc (.noDimension hnum)⟩
      · obtain ⟨ps, it', hloop⟩ : ∃ ps it',
            Repeats Reads (readStrNumber rest).2 (atDelim ']') ps it' :=
          Repeats.exists_of_advances rfl fun it' hle hne => by
            obtain ⟨p, rest', h⟩ := ih it' (hle.trans hnumber)
            exact ⟨p, rest', h, h.length_lt hne⟩
        obtain ⟨closed, rest', hend⟩ := exists_closes hloop.stop_eq
        exact ⟨_, rest', .array hc hnum hloop hend⟩
  | struct =>
      by_cases ho : OpaqueName '}' rest
      · exact ⟨_, _, .leaf hc (.opaqueStruct ho)⟩
      · exact hfields .struct hc fun _ => ho
  | union => exact hfields .union hc fun h => Aggregate.noConfusion h

lemma exists_reads (it : Str) : ∃ p rest, Reads it p rest := by
  induction hn : it.length using Nat.strong_induction_on generalizing it with
  | _ n ih =>
      cases hc : codeAt it with
      | nil => exact ⟨_, _, .nothing hc⟩
      | cons c rest =>
          have hlt := length_lt_of_codeAt hc
          exact exists_reads_of_codeAt hc fun it' hle => ih _ (by omega) it' rfl

/-! ### The part behind a code -/

lemma RejectedAt.code_cases (h : RejectedAt c it) :
    c ∉ typeCodes ∨ (readStrNumber it).1 = [] ∧ c ∈ ['b', '['] := by
  cases h with
  | unsupported hc => exact Or.inl hc
  | noWidth hnum | noDimension hnum => exact Or.inr ⟨hnum, by simp⟩

/-- The letters of types without parts that may also be letters of other types. -/
lemma LeafAt.code_cases (h : LeafAt c it t rest) :
    c ∉ ['^', '[', '{', '('] ∨ c = '^' ∧ it.head? = some '?' ∨ c = '{' ∧ OpaqueName '}' it := by
  cases h with
  | primitive p => exact Or.inl (by cases p <;> decide)
  | voidPointer => exact Or.inr (Or.inl ⟨rfl, rfl⟩)
  | opaqueStruct ho => exact Or.inr (Or.inr ⟨rfl, ho⟩)
  | _ => exact Or.inl (by decide)

/-- Behind the code of a type with parts, there are its parts. -/
lemma Reads.pointer_of_codeAt {rest' : Str} (h : Reads it p rest') (hc : codeAt it = '^' :: rest)
    (hv : rest.head? ≠ some '?') : ∃ q, p = .pointer q ∧ Reads rest q rest' := by
  cases h with
  | nothing hc' => exact absurd (hc.symm.trans hc') (List.cons_ne_nil _ _)
  | rejected hc' hr =>
      obtain ⟨rfl, rfl⟩ := List.cons.inj (hc.symm.trans hc')
      rcases hr.code_cases with hn | ⟨-, hn⟩ <;> exact absurd hn (by decide)
  | leaf hc' hl =>
      obtain ⟨rfl, rfl⟩ := List.cons.inj (hc.symm.trans hc')
      rcases hl.code_cases with hn | ⟨-, hq⟩ | ⟨hn, -⟩
      · exact absurd hn (by decide)
      · exact absurd hq hv
      · exact absurd hn (by decide)
  | pointer hc' _ hq =>
      obtain ⟨-, rfl⟩ := List.cons.inj (hc.symm.trans hc')
      exact ⟨_, rfl, hq⟩
  | array hc' => exact absurd (List.cons.inj (hc.symm.trans hc')).1 (by decide)
  | @aggregate _ _ _ _ tag _ _ hc' =>
      cases tag <;> exact absurd (List.cons.inj (hc.symm.trans hc')).1 (by decide)

lemma Reads.array_of_codeAt {rest' : Str} (h : Reads it p rest') (hc : codeAt it = '[' :: rest)
    (hnum : (readStrNumber rest).1 ≠ []) : ∃ ps closed it',
      p = .array (strtoull (readStrNumber rest).1) closed ps ∧
        Repeats Reads (readStrNumber rest).2 (atDelim ']') ps it' ∧
          Closes ']' closed it' rest' := by
  cases h with
  | nothing hc' => exact absurd (hc.symm.trans hc') (List.cons_ne_nil _ _)
  | rejected hc' hr =>
      obtain ⟨rfl, rfl⟩ := List.cons.inj (hc.symm.trans hc')
      rcases hr.code_cases with hn | ⟨hn, -⟩
      · exact absurd hn (by decide)
      · exact absurd hn hnum
  | leaf hc' hl =>
      obtain ⟨rfl, rfl⟩ := List.cons.inj (hc.symm.trans hc')
      rcases hl.code_cases with hn | ⟨hn, -⟩ | ⟨hn, -⟩ <;> exact absurd hn (by decide)
  | pointer hc' => exact absurd (List.cons.inj (hc.symm.trans hc')).1 (by decide)
  | array hc' _ hloop hend =>
      obtain ⟨-, rfl⟩ := List.cons.inj (hc.symm.trans hc')
      exact ⟨_, _, _, rfl, hloop, hend⟩
  | @aggregate _ _ _ _ tag _ _ hc' =>
      cases tag <;> exact absurd (List.cons.inj (hc.symm.trans hc')).1 (by decide)

lemma Reads.aggregate_of_codeAt {rest' : Str} (h : Reads it p rest') (tag : Aggregate)
    (hc : codeAt it = tag.opening :: rest) (ho : tag = .struct → ¬ OpaqueName '}' rest) :
    ∃ fs closed it', p = .aggregate tag (nameAt rest) closed fs ∧
      Repeats ReadsField (bodyAt rest) (atDelim tag.closing) fs it' ∧
        Closes tag.closing closed it' rest' := by
  cases h with
  | nothing hc' => exact absurd (hc.symm.trans hc') (List.cons_ne_nil _ _)
  | rejected hc' hr =>
      obtain ⟨rfl, rfl⟩ := List.cons.inj (hc.symm.trans hc')
      rcases hr.code_cases with hn | ⟨-, hn⟩ <;> cases tag <;> exact absurd hn (by decide)
  | leaf hc' hl =>
      obtain ⟨rfl, rfl⟩ := List.cons.inj (hc.symm.trans hc')
      rcases hl.code_cases with hn | ⟨hn, -⟩ | ⟨hn, ho'⟩
      · cases tag <;> exact absurd hn (by decide)
      · cases tag <;> exact absurd hn (by decide)
      · cases tag with
        | struct => exact absurd ho' (ho rfl)
        | union => exact absurd hn (by decide)
  | pointer hc' => cases tag <;> exact absurd (List.cons.inj (hc.symm.trans hc')).1 (by decide)
  | array hc' => cases tag <;> exact absurd (List.cons.inj (hc.symm.trans hc')).1 (by decide)
  | @aggregate _ _ _ _ tag' _ _ hc' _ hloop hend =>
      obtain ⟨htag, rfl⟩ := List.cons.inj (hc.symm.trans hc')
      obtain rfl : tag = tag' := by
        cases tag <;> cases tag' <;> first | rfl | exact absurd htag (by decide)
      exact ⟨_, _, _, rfl, hloop, hend⟩

/-! ### Parts that are types -/

/-- The part is a type, and not rejected: every bracket that it is made of was closed. -/
def Part.isType : Part → Bool
  | rejected => false
  | leaf _ => true
  | pointer p => p.isType
  | array _ closed _ => closed
  | aggregate _ _ closed _ => closed

lemma Aggregate.type_ne_null (tag : Aggregate) (n : Str) (as : List AttrTy) :
    tag.type n as ≠ .null := by
  cases tag <;> exact Ty.noConfusion

lemma Reads.isNull_type (h : Reads it p rest) : p.type.isNull = !p.isType := by
  refine Reads.induct (P := fun _ p _ => p.type.isNull = !p.isType) ?_ ?_ ?_ ?_ ?_ ?_ h
  · exact fun _ => rfl
  · exact fun _ _ => rfl
  · exact fun _ hl => Ty.isNull_eq_false_iff.2 hl.ne_null
  · intro it rest rest' p _ _ ih
    rw [Part.type, Part.isType]
    cases hp : p.isType with
    | false => rw [if_pos (by rw [ih, hp]; rfl)]; rfl
    | true => rw [if_neg (by rw [ih, hp]; simp)]; rfl
  · intro it rest it' rest' ps closed _ _ _ _
    cases closed <;> rfl
  · intro it rest it' rest' tag fs closed _ _ _ _
    cases closed with
    | false => rfl
    | true => exact Ty.isNull_eq_false_iff.2 (tag.type_ne_null _ _)

lemma Reads.ne_null (h : Reads it p rest) (hp : p.isType = true) : p.type ≠ .null := by
  have hnull := h.isNull_type
  rw [hp] at hnull
  exact Ty.isNull_eq_false_iff.1 hnull

/-- At `it` there is a letter that encodes no type, perhaps behind letters for pointers. -/
inductive NoTypeAt : Str → Prop
  | letter {it rest : Str} {c : Char} (hc : codeAt it = c :: rest) (h : RejectedAt c rest) :
      NoTypeAt it
  | pointer {it rest : Str} (hc : codeAt it = '^' :: rest) (hv : rest.head? ≠ some '?')
      (h : NoTypeAt rest) : NoTypeAt it

lemma NoTypeAt.process_null (h : NoTypeAt it) : (process it).1 = .null := by
  induction h with
  | letter hc hr => rw [process_of_codeAt hc, hr.processCode_eq]
  | pointer hc hv h ih =>
      rw [process_of_codeAt hc, processCode_pointer, processPointer_of_ne hv,
        if_pos (Ty.isNull_iff.2 ih)]

/-- Before the end of the string, there is no other way for a part to be no type: a bracket that
is not closed takes all that is left. -/
lemma Reads.noTypeAt (h : Reads it p rest) (hnull : p.isType = false) (hne : rest ≠ []) :
    NoTypeAt it := by
  refine Reads.induct (P := fun it p rest => p.isType = false → rest ≠ [] → NoTypeAt it)
    ?_ ?_ ?_ ?_ ?_ ?_ h hnull hne
  · exact fun _ _ hne => absurd rfl hne
  · exact fun hc hr _ _ => .letter hc hr
  · exact fun _ _ hnull => absurd hnull (by simp [Part.isType])
  · exact fun hc hv ih hnull hne => .pointer hc hv (ih hnull hne)
  · rintro it rest it' rest' ps closed _ _ _ hend rfl hne
    cases hend
    exact absurd rfl hne
  · rintro it rest it' rest' tag fs closed _ _ _ hend rfl hne
    cases hend
    exact absurd rfl hne

lemma noTypeAt_iff (hne : (process it).2 ≠ []) : NoTypeAt it ↔ (process it).1 = .null := by
  refine ⟨NoTypeAt.process_null, fun hnull => ?_⟩
  obtain ⟨p, rest, h⟩ := exists_reads it
  have hnone := h.isNull_type
  rw [h.process_eq] at hnull hne
  rw [show p.type = .null from hnull] at hnone
  exact h.noTypeAt (by simpa [Ty.isNull] using hnone.symm) hne

/-! ### Signatures -/

lemma exists_splits (s : Str) : ∃ ps, Splits s ps := by
  obtain ⟨ps, it, hps⟩ : ∃ ps it,
      Repeats (fun it => Reads (processSpecifier it).2) s List.isEmpty ps it :=
    Repeats.exists_of_advances rfl fun it _ hne => by
      obtain ⟨p, rest, h⟩ := exists_reads (processSpecifier it).2
      exact ⟨p, rest, h, h.length_lt_of_specifier hne⟩
  obtain rfl : it = [] := List.isEmpty_iff.1 hps.stop_eq
  exact ⟨ps, hps⟩

/-- To describe the parts of a string, it is enough to take any of the ways to split it. -/
lemma iff_forall_splits {s : Str} {P : Prop} {Q : List Part → Prop}
    (h : ∀ ps, Splits s ps → (P ↔ Q ps)) : P ↔ ∀ ps, Splits s ps → Q ps := by
  obtain ⟨ps, hps⟩ := exists_splits s
  exact ⟨fun hP ps' hps' => (h ps' hps').1 hP, fun hQ => (h ps hps).2 (hQ ps hps)⟩

/-- **`decode_type` follows the rules**: it makes the types of the parts of the string, and drops
the parts that are no types. -/
theorem Splits.decodeType_eq {s : Str} {ps : List Part} (h : Splits s ps) :
    decodeType s = (ps.map Part.type).filter fun t => !t.isNull := by
  have heq := h.repeatUntil_eq (f := Part.type) List.isEmpty_nil decodeStep_advances
    fun _ _ _ h => h.process_eq
  rw [decodeType, heq]

/-- What a signature is split into are parts that were read. -/
lemma Splits.forall_mem {P : Part → Prop} {s : Str} {ps : List Part} (h : Splits s ps)
    (hP : ∀ it p rest, Reads it p rest → P p) : ∀ p ∈ ps, P p :=
  Repeats.forall_mem h fun _ _ _ h => hP _ _ _ h

end ICDump
