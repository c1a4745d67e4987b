/-
Structures all of whose fields are named.

The text of a field is its name between quotes and the encoding of its type.  A quoted string
behind a `@` is always taken for the name of a class, so a field whose encoding ends with a bare
`@` swallows the name of the field that comes next.  `Ty.read` is the tree that comes out in the
end.  It is the tree that was written exactly when there is no such field and every number has one
digit.
-/
import ICDump.Encoding.RoundTrip

namespace ICDump

namespace Ty

/-! ### What is read -/

/-- The encoding of the type ends with an object without a class. -/
def endsBare : Ty → Bool
  | object n => n.isEmpty
  | pointer t => endsBare t
  | _ => false

/-- Give the object without a class that the encoding ends with, if there is one, the class `n`. -/
def withClass (n : Str) : Ty → Ty
  | object m => object (if m.isEmpty then n else m)
  | pointer t => pointer (withClass n t)
  | t => t

/-- The name of the first field. -/
def firstName (as : List AttrTy) : Str := (as.head?.map Prod.fst).getD []

mutual

/-- What is read of a tree in which all fields are named. -/
def read : Ty → Ty
  | pointer t => pointer (read t)
  | array n t => array (n % 10) (read t)
  | struct n as => struct n (readAttrs false as)
  | union n as => union n (readAttrs false as)
  | bitField n => bitField (n % 10)
  | t => t

/-- `read` on the attributes.  When the field before them has swallowed the name of the first, it
is empty. -/
def readAttrs : Bool → List (Str × Ty) → List (Str × Ty)
  | _, [] => []
  | swallowed, (n, t) :: as =>
      (if swallowed then [] else n, (read t).withClass (firstName as)) :: readAttrs t.endsBare as

end

variable {t : Ty} {n : Str}

lemma withClass_nil (t : Ty) : t.withClass [] = t := by
  induction t with
  | pointer t ih => rw [withClass, ih]
  | object m => cases m <;> rfl
  | _ => rfl

lemma withClass_of_not_endsBare (h : t.endsBare = false) : t.withClass n = t := by
  induction t with
  | pointer t ih => rw [withClass, ih h]
  | object m => rw [withClass, if_neg (by simpa [endsBare] using h)]
  | _ => rfl

@[simp] lemma endsBare_read (t : Ty) : t.read.endsBare = t.endsBare := by
  induction t with
  | pointer t ih => exact ih
  | _ => rfl

lemma withClass_ne_null (h : t ≠ null) : t.withClass n ≠ null := by
  cases t <;> simp_all [withClass]

lemma read_ne_null (h : t ≠ null) : t.read ≠ null := by
  cases t <;> simp_all [read]

/-! ### What is read back -/

/-- The fields of the node have names. -/
def Labelled : Ty → Prop
  | struct _ as => ∀ a ∈ as, a.1 ≠ []
  | union _ as => ∀ a ∈ as, a.1 ≠ []
  | _ => True

/-- The number in the node has one digit, and no field but the last ends with an object without a
class. -/
def ReadBack : Ty → Prop
  | array n _ => n < 10
  | bitField n => n < 10
  | struct _ as => ∀ a ∈ as.dropLast, a.2.endsBare = false
  | union _ as => ∀ a ∈ as.dropLast, a.2.endsBare = false
  | _ => True

lemma readAttrs_eq_self_iff {as : List AttrTy} (hn : ∀ a ∈ as, a.1 ≠ []) (swallowed : Bool) :
    readAttrs swallowed as = as ↔ (as = [] ∨ swallowed = false) ∧
      (∀ a ∈ as, a.2.read = a.2) ∧ ∀ a ∈ as.dropLast, a.2.endsBare = false := by
  induction as generalizing swallowed with
  | nil => simp [readAttrs]
  | cons a as ih =>
      obtain ⟨n, t⟩ := a
      rw [List.forall_mem_cons] at hn
      obtain ⟨hname, hn⟩ := hn
      rw [readAttrs, List.cons.injEq, Prod.mk.injEq, ih hn]
      cases as with
      | nil => cases swallowed <;> simp [firstName, withClass_nil, Ne.symm hname]
      | cons b as =>
          cases ht : t.endsBare with
          | true => simp [ht]
          | false =>
              have hread : t.read.withClass (firstName (b :: as)) = t.read :=
                withClass_of_not_endsBare (by rw [endsBare_read, ht])
              cases swallowed <;> simp [ht, hread, and_assoc, Ne.symm hname]

/-- **A tree is read back** exactly when all its nodes are. -/
lemma read_eq_self_iff (h : t.All Labelled) : t.read = t ↔ t.All ReadBack := by
  induction t with
  | pointer t ih =>
      rw [read, pointer.injEq, ih h.2]
      simp [All, ReadBack]
  | array n t ih =>
      rw [read, array.injEq, ih h.2, All, ReadBack]
      simp
  | bitField n => simp [read, All, ReadBack]
  | struct n as ih | union n as ih =>
      have hchild : ∀ a ∈ as, a.2.read = a.2 ↔ a.2.All ReadBack := fun a ha =>
        ih a ha (allAttrs_iff.1 h.2 a ha)
      simp only [read, struct.injEq, union.injEq, true_and, readAttrs_eq_self_iff h.1, or_true, All,
        allAttrs_iff, ReadBack]
      rw [forall₂_congr hchild, and_comm]
  | _ => simp [read, All, ReadBack]

/-- A type without parts, other than an object. -/
def Plain : Ty → Prop
  | primitive _ | selector | unknown | cls | block | bitField _ => True
  | _ => False

end Ty

/-! ### The grammar -/

/-- `Named t w`: the string `w` is an encoding of the tree `t`, in which every field of every
structure and union is named.  An object has a class that is not empty, or it is bare. -/
inductive Named : Ty → Str → Prop
  | plain {t : Ty} {w : Str} (ht : t.Plain) (h : Encodes t w) : Named t w
  | bareObject : Named (.object []) ['@']
  | object {n : Str} (hne : n ≠ []) (hn : '"' ∉ n) : Named (.object n) ('@' :: '"' :: n ++ ['"'])
  | voidPointer : Named (.pointer (.primitive .void)) ['^', '?']
  | pointer {t : Ty} {w : Str} (hw : w.head? ≠ some '?') (h : Named t w) :
      Named (.pointer t) ('^' :: w)
  | array {t : Ty} {w ds : Str} (hds : IsNumber ds) (h : Named t w) :
      Named (.array (Nat.ofDigitChars 10 ds 0) t) ('[' :: ds ++ w ++ [']'])
  | opaqueStruct {n text : Str} (hn : ∀ c ∈ n, c ≠ '=' ∧ c ≠ '}') (htext : NameText n text) :
      Named (.struct n []) ('{' :: text ++ ['}'])
  | struct {n text : Str} {fs : List Field} (hn : ∀ c ∈ n, c ≠ '=' ∧ c ≠ '}')
      (htext : NameText n text) (hnames : ∀ f ∈ fs, f.name ≠ [] ∧ '"' ∉ f.name)
      (hfs : ∀ f ∈ fs, Named f.type f.code) :
      Named (.struct n (fieldAttrs fs)) ('{' :: text ++ '=' :: fieldsText fs ++ ['}'])
  | union {n text : Str} {fs : List Field} (hn : ∀ c ∈ n, c ≠ '=') (htext : NameText n text)
      (hnames : ∀ f ∈ fs, f.name ≠ [] ∧ '"' ∉ f.name) (hfs : ∀ f ∈ fs, Named f.type f.code) :
      Named (.union n (fieldAttrs fs)) ('(' :: text ++ '=' :: fieldsText fs ++ [')'])
  | qualified {q : Char} {t : Ty} {w : Str} (hq : specifier q ≠ .unknown) (h : Named t w) :
      Named t (q :: w)

namespace Named

variable {t : Ty} {w rest : Str}

lemma exists_cons (h : Named t w) : ∃ c w', w = c :: w' ∧ StartLetter c := by
  cases h with
  | plain _ h => exact h.exists_cons
  | qualified hq _ => exact ⟨_, _, rfl, startLetter_of_specifier hq⟩
  | _ => exact ⟨_, _, rfl, rfl, by decide, by decide, by decide⟩

lemma isDigit_head (h : Named t w) (rest : Str) : ∀ c ∈ (w ++ rest).head?, isDigit c = false := by
  obtain ⟨c, w', rfl, hc⟩ := h.exists_cons
  intro b hb
  obtain rfl : c = b := by simpa using hb
  exact hc.isDigit

lemma ne_null (h : Named t w) : t ≠ .null := by
  induction h with
  | plain _ h => exact h.ne_null
  | qualified _ _ ih => exact ih
  | _ => exact Ty.noConfusion

lemma labelled (h : Named t w) : t.All Ty.Labelled := by
  induction h with
  | @plain t w ht h => cases t <;> trivial
  | pointer _ _ ih | array _ _ ih => exact ⟨trivial, ih⟩
  | voidPointer => exact ⟨trivial, trivial⟩
  | opaqueStruct => exact ⟨by simp [Ty.Labelled], trivial⟩
  | struct hn htext hnames hfs ih | union hn htext hnames hfs ih =>
      refine ⟨?_, Ty.allAttrs_iff.2 ?_⟩
      · exact List.forall_mem_map.2 fun f hf => (hnames f hf).1
      · exact List.forall_mem_map.2 ih
  | qualified _ _ ih => exact ih
  | _ => trivial

end Named

/-! ### Reading -/

/-- What is left of the string when a type was read that may have swallowed a name. -/
def swallow (t : Ty) (rest : Str) : Str × Str :=
  if t.endsBare then readOptName rest else ([], rest)

/-- What comes after the encoding of a type is not taken for a part of it, other than a name. -/
def Separate (rest : Str) : Prop := ∀ c ∈ rest.head?, isDigit c = false ∧ c ≠ '?'

/-- The encoding of a plain type does not end with `@`. -/
lemma Encodes.juxtaposable {t : Ty} {w rest : Str} (h : Encodes t w) (ht : t.Plain)
    (hrest : Separate rest) : Juxtaposable w rest := by
  have hlast : ∀ a ∈ w.getLast?, a ≠ '@' := by
    induction h with
    | primitive p => cases p <;> simp [Primitive.code]
    | bitField hds =>
        intro a ha
        rw [List.getLast?_cons_of_ne_nil hds.1] at ha
        rintro rfl
        exact absurd (hds.2 _ (List.mem_of_getLast? ha)) (by decide)
    | qualified hq h ih =>
        rw [List.getLast?_cons_of_ne_nil h.ne_nil]
        exact ih ht
    | cls | selector | unknown | block => simp
    | _ => exact absurd ht id
  exact fun a ha b hb => ⟨fun hat => hlast a ha hat.1, fun hd => by simp [(hrest b hb).1] at hd⟩

/-- The text of the fields.  The name of the first may have been swallowed. -/
def fieldsFrom : Bool → List Field → Str
  | _, [] => []
  | swallowed, f :: fs => (if swallowed then f.code else f.text) ++ fieldsText fs

section

variable {delim : Char} {fs : List Field} {rest : Str}

lemma separate_fieldsText (hb : delim = '}' ∨ delim = ')') (hnames : ∀ f ∈ fs, f.name ≠ []) :
    Separate (fieldsText fs ++ delim :: rest) := by
  cases fs with
  | nil => rcases hb with rfl | rfl <;> simp [Separate, fieldsText, isDigit]
  | cons f fs =>
      have hname := hnames f List.mem_cons_self
      simp [Separate, fieldsText, Field.text, hname, isDigit]

/-- In front of the other fields, an object without a class swallows the name of the next. -/
lemma swallow_fieldsText (hb : delim = '}' ∨ delim = ')')
    (hnames : ∀ f ∈ fs, f.name ≠ [] ∧ '"' ∉ f.name) (t : Ty) :
    swallow t (fieldsText fs ++ delim :: rest) =
      (if t.endsBare then Ty.firstName (fieldAttrs fs) else [],
        fieldsFrom t.endsBare fs ++ delim :: rest) := by
  rw [swallow]
  cases ht : t.endsBare with
  | false => cases fs <;> simp [fieldsFrom, fieldsText]
  | true =>
      cases fs with
      | nil =>
          have hq : delim ≠ '"' := by rcases hb with rfl | rfl <;> decide
          simp [fieldsText, fieldsFrom, fieldAttrs, Ty.firstName, readOptName_of_ne hq]
      | cons f fs =>
          obtain ⟨hne, hq⟩ := hnames f List.mem_cons_self
          have htext : fieldsText (f :: fs) ++ delim :: rest =
              '"' :: f.name ++ '"' :: (f.code ++ (fieldsText fs ++ delim :: rest)) := by
            simp [fieldsText, Field.text, hne]
          rw [if_pos rfl, htext, readOptName_quoted hq]
          simp [fieldsFrom, fieldAttrs, Ty.firstName]

/-- What the decoder makes of one encoding. -/
def ReadsAs (t : Ty) (w : Str) : Prop := ∀ rest, Separate rest →
  process (w ++ rest) = (t.read.withClass (swallow t rest).1, (swallow t rest).2)

/-- The loop on the fields of a structure or union. -/
lemma repeatUntil_fieldsFrom (hb : delim = '}' ∨ delim = ')')
    (hnames : ∀ f ∈ fs, f.name ≠ [] ∧ '"' ∉ f.name) (hfs : ∀ f ∈ fs, Named f.type f.code)
    (ih : ∀ f ∈ fs, ReadsAs f.type f.code) (rest : Str) (swallowed : Bool) :
    Reader.repeatUntil (atDelim delim) (processAttr process)
        (fieldsFrom swallowed fs ++ delim :: rest) =
      (Ty.readAttrs swallowed (fieldAttrs fs), delim :: rest) := by
  induction fs generalizing swallowed with
  | nil => exact Reader.repeatUntil_of_stop (by simp [atDelim, fieldsFrom])
  | cons f fs ihs =>
      rw [List.forall_mem_cons] at hnames hfs ih
      obtain ⟨⟨hne, hq⟩, hnames⟩ := hnames
      obtain ⟨c, w, hw, hc⟩ := hfs.1.exists_cons
      have hstop : atDelim delim (fieldsFrom swallowed (f :: fs) ++ delim :: rest) = false := by
        have hcode : c ≠ delim := by
          rcases hb with rfl | rfl
          · exact hc.ne_brace
          · exact hc.ne_paren
        cases swallowed with
        | true => simp [fieldsFrom, hw, atDelim, hcode]
        | false => rcases hb with rfl | rfl <;> simp [fieldsFrom, Field.text, hne, atDelim]
      have hname : readOptName (fieldsFrom swallowed (f :: fs) ++ delim :: rest) =
          (if swallowed then [] else f.name, f.code ++ (fieldsText fs ++ delim :: rest)) := by
        cases swallowed with
        | true =>
            have htext : fieldsFrom true (f :: fs) ++ delim :: rest =
                c :: (w ++ (fieldsText fs ++ delim :: rest)) := by
              simp [fieldsFrom, hw]
            rw [htext, readOptName_of_ne hc.ne_quote, hw]
            rfl
        | false =>
            have htext : fieldsFrom false (f :: fs) ++ delim :: rest =
                '"' :: f.name ++ '"' :: (f.code ++ (fieldsText fs ++ delim :: rest)) := by
              simp [fieldsFrom, Field.text, hne]
            rw [htext, readOptName_quoted hq]
            rfl
      have hsep : Separate (fieldsText fs ++ delim :: rest) :=
        separate_fieldsText hb fun f hf => (hnames f hf).1
      have hproc := ih.1 _ hsep
      rw [swallow_fieldsText hb hnames] at hproc
      have hclass : f.type.read.withClass
          (if f.type.endsBare then Ty.firstName (fieldAttrs fs) else []) =
            f.type.read.withClass (Ty.firstName (fieldAttrs fs)) := by
        cases ht : f.type.endsBare with
        | true => rfl
        | false =>
            have hread : f.type.read.endsBare = false := by rw [Ty.endsBare_read, ht]
            rw [Ty.withClass_of_not_endsBare hread, Ty.withClass_of_not_endsBare hread]
      rw [Reader.repeatUntil_of_not_stop rfl processAttr_advances hstop, processAttr, hname, hproc,
        hclass, ihs hnames hfs.2 ih.2]
      rfl

/-- The body of a structure or union, up to the closing bracket. -/
lemma processAttrs_fieldsText (hb : delim = '}' ∨ delim = ')')
    (hnames : ∀ f ∈ fs, f.name ≠ [] ∧ '"' ∉ f.name) (hfs : ∀ f ∈ fs, Named f.type f.code)
    (ih : ∀ f ∈ fs, ReadsAs f.type f.code) (mk : List AttrTy → Ty) (rest : Str) :
    processAttrs process delim mk (fieldsText fs ++ delim :: rest) =
      (mk (Ty.readAttrs false (fieldAttrs fs)), rest) := by
  have htext : fieldsText fs = fieldsFrom false fs := by cases fs <;> simp [fieldsText, fieldsFrom]
  rw [processAttrs_eq, htext, repeatUntil_fieldsFrom hb hnames hfs ih rest false]
  simp

end

lemma swallow_delim {c : Char} (hc : c ≠ '"') (t : Ty) (rest : Str) :
    swallow t (c :: rest) = ([], c :: rest) := by
  rw [swallow, readOptName_of_ne hc, ite_self]

lemma ReadsAs.of_not_endsBare {t : Ty} {w : Str} (ht : t.endsBare = false)
    (h : ∀ rest, Separate rest → process (w ++ rest) = (t.read, rest)) : ReadsAs t w := by
  intro rest hrest
  rw [h rest hrest, swallow, ht, if_neg (by simp), Ty.withClass_nil]

/-- **What the decoder makes of an encoding**: the type that is read, with the name behind it for
a class if it ends with an object without one. -/
theorem Named.readsAs {t : Ty} {w : Str} (h : Named t w) : ReadsAs t w := by
  induction h with
  | @plain t w ht h =>
      refine .of_not_endsBare (by cases t <;> trivial) fun rest hrest => ?_
      rw [process_append h rest (h.juxtaposable ht hrest)]
      cases t <;> trivial
  | bareObject =>
      intro rest hrest
      have hblock : rest.head? ≠ some '?' := fun h => (hrest _ h).2 rfl
      rw [List.singleton_append, process_code rfl rfl, processCode_object, processObject,
        if_neg hblock]
      rfl
  | @object n hne hn =>
      refine .of_not_endsBare (by simpa [Ty.endsBare] using hne) fun rest _ => ?_
      rw [List.append_assoc, List.singleton_append, process_object hn]
      rfl
  | voidPointer =>
      refine .of_not_endsBare rfl fun rest _ => ?_
      rw [List.cons_append, process_code rfl rfl]
      rfl
  | @pointer t w hw h ih =>
      intro rest hrest
      have hhead : (w ++ rest).head? ≠ some '?' := by
        obtain ⟨c, w', rfl, -⟩ := h.exists_cons
        simpa using hw
      have hnull : (t.read.withClass (swallow t rest).1).isNull = false :=
        Ty.isNull_eq_false_iff.2 (Ty.withClass_ne_null (Ty.read_ne_null h.ne_null))
      rw [List.cons_append, process_code rfl rfl, processCode_pointer, processPointer_of_ne hhead,
        ih rest hrest, hnull]
      rfl
  | @array t w ds hds h ih =>
      refine .of_not_endsBare rfl fun rest _ => ?_
      have hproc := ih (']' :: rest) (by simp [Separate, isDigit])
      rw [swallow_delim (by decide), Ty.withClass_nil] at hproc
      have htext : '[' :: ds ++ w ++ [']'] ++ rest = '[' :: ds ++ w ++ ']' :: rest := by simp
      have hhead : ∀ b ∈ w.head?, isDigit b = false := by
        simpa using h.isDigit_head []
      rw [htext, process_array hds hhead hproc (Ty.read_ne_null h.ne_null)]
      rfl
  | @opaqueStruct n text hn htext =>
      refine .of_not_endsBare rfl fun rest _ => ?_
      have hmem : ∀ c ∈ n, (c != '=' && c != '}') = true := fun c hc => by simpa using hn c hc
      have heq : '{' :: text ++ ['}'] ++ rest = '{' :: (text ++ '}' :: rest) := by simp
      rw [heq, process_code rfl rfl, processCode_struct, processStructure,
        skipChar_nameText htext (by decide), takeWhile_append_cons hmem rfl,
        dropWhile_append_cons hmem rfl]
      simp [Ty.read, Ty.readAttrs]
  | @struct n text fs hn htext hnames hfs ih =>
      refine .of_not_endsBare rfl fun rest _ => ?_
      have hbody := processAttrs_fieldsText (Or.inl rfl) hnames hfs ih (.struct n) rest
      have heq : '{' :: text ++ '=' :: fieldsText fs ++ ['}'] ++ rest =
          '{' :: text ++ '=' :: (fieldsText fs ++ '}' :: rest) := by simp
      rw [heq, process_struct hn htext, hbody, Ty.read]
  | @union n text fs hn htext hnames hfs ih =>
      refine .of_not_endsBare rfl fun rest _ => ?_
      have hbody := processAttrs_fieldsText (Or.inr rfl) hnames hfs ih (.union n) rest
      have heq : '(' :: text ++ '=' :: fieldsText fs ++ [')'] ++ rest =
          '(' :: text ++ '=' :: (fieldsText fs ++ ')' :: rest) := by simp
      rw [heq, process_union hn htext, hbody, Ty.read]
  | @qualified q t w hq h ih =>
      intro rest hrest
      rw [List.cons_append, process_specifier hq (h.isDigit_head rest), ih rest hrest]

/-! ### Strings -/

/-- The only type of the string is the one that is read. -/
lemma Named.decodeType_eq {t : Ty} {w : Str} (h : Named t w) : decodeType w = [t.read] := by
  have hproc := h.readsAs [] (by simp [Separate])
  have hswallow : swallow t [] = ([], []) := by
    rw [swallow]
    split <;> rfl
  rw [hswallow, Ty.withClass_nil, List.append_nil] at hproc
  have hnull := Ty.read_ne_null h.ne_null
  have hstep : decodeStep w = (t.read, []) := by
    rw [decodeStep_eq (by rwa [hproc]), hproc]
  rw [decodeType_of_ne_null hstep hnull, decodeType_nil]

/-- **A structure with named fields is decoded field by field**, at any depth, when no field but
the last ends with an object without a class, and every number has one digit. -/
theorem decodeType_named {t : Ty} {w : Str} (h : Named t w) :
    decodeType w = [t] ↔ t.All Ty.ReadBack := by
  rw [h.decodeType_eq, List.singleton_inj, Ty.read_eq_self_iff h.labelled]

/-- In `{S="a"i"b"@}` the field `b` is the last. -/
theorem decodeType_named_last :
    decodeType ['{', 'S', '=', '"', 'a', '"', 'i', '"', 'b', '"', '@', '}'] =
      [.struct ['S'] [(['a'], .primitive .int), (['b'], .object [])]] := by
  have hint : Named (.primitive .int) ['i'] := .plain trivial (.primitive .int)
  have hnamed := @Named.struct ['S'] ['S']
    [⟨['a'], .primitive .int, ['i']⟩, ⟨['b'], .object [], ['@']⟩] (by simp) (Or.inr ⟨rfl, by simp⟩)
    (by simp) (by simpa using ⟨hint, Named.bareObject⟩)
  exact (decodeType_named hnamed).2
    (by simp [fieldAttrs, Ty.All, Ty.AllAttrs, Ty.ReadBack, Ty.endsBare])

/-- In `{S="a"@"b"i}` the name `b` is taken for the class of the field `a`. -/
theorem decodeType_named_swallowed :
    decodeType ['{', 'S', '=', '"', 'a', '"', '@', '"', 'b', '"', 'i', '}'] =
        [.struct ['S'] [(['a'], .object ['b']), ([], .primitive .int)]] ∧
      ¬ ∀ t w, Named t w → decodeType w = [t] := by
  have hdecode : decodeType ['{', 'S', '=', '"', 'a', '"', '@', '"', 'b', '"', 'i', '}'] =
      [.struct ['S'] [(['a'], .object ['b']), ([], .primitive .int)]] := rfl
  refine ⟨hdecode, fun h => ?_⟩
  have hint : Named (.primitive .int) ['i'] := .plain trivial (.primitive .int)
  have hnamed : Named (.struct ['S'] [(['a'], .object []), (['b'], .primitive .int)])
      ['{', 'S', '=', '"', 'a', '"', '@', '"', 'b', '"', 'i', '}'] :=
    @Named.struct ['S'] ['S'] [⟨['a'], .object [], ['@']⟩, ⟨['b'], .primitive .int, ['i']⟩]
      (by simp) (Or.inr ⟨rfl, by simp⟩) (by simp) (by simpa using ⟨Named.bareObject, hint⟩)
  have heq := hdecode.symm.trans (h _ _ hnamed)
  simp at heq

end ICDump
