/-
A canonical printer, and why decoding what it prints changes nothing.

The decoder accepts every string, so the trees that come out of it are not all
trees: a name never contains the letter that ends it, and a number has one digit.
`Ty.Readable` lists these properties of a node.  Every tree that `process` returns
has them at every node (`readable_process`), and the printed form of a tree that
has them and lacks no child is an encoding of that tree (`encodes_print`).  The
round trip of `RoundTrip.lean` does the rest.
-/
import ICDump.Encoding.RoundTrip
import Mathlib.Data.List.TakeWhile

namespace ICDump

/-! ### The printer -/

/-- The name of a structure or union, with a question mark where the decoder would take
one off. -/
def printName (n : Str) : Str := if n = [] ∨ n.head? = some '?' then '?' :: n else n

/-- The name of a field, which is not written when it is empty. -/
def printFieldName (n : Str) : Str := if n = [] then [] else '"' :: n ++ ['"']

namespace Ty

mutual

/-- The canonical encoding of a tree. -/
def print : Ty → Str
  | null => []
  | primitive p => [p.code]
  | selector => [':']
  | unknown => ['?']
  | cls => ['#']
  | block => ['@', '?']
  | object n => '@' :: '"' :: n ++ ['"']
  | pointer unknown => ['^', 'r', '?']
  | pointer t => '^' :: print t
  | array n t => '[' :: Nat.toDigits 10 n ++ print t ++ [']']
  | struct n as => '{' :: printName n ++ '=' :: printAttrs as ++ ['}']
  | union n as => '(' :: printName n ++ '=' :: printAttrs as ++ [')']
  | bitField n => 'b' :: Nat.toDigits 10 n

/-- The encodings of the fields of a structure or union. -/
def printAttrs : List (Str × Ty) → Str
  | [] => []
  | (n, t) :: as => printFieldName n ++ print t ++ printAttrs as

end

lemma print_pointer_of_ne {t : Ty} (ht : t ≠ unknown) : (pointer t).print = '^' :: t.print := by
  cases t with
  | unknown => exact absurd rfl ht
  | _ => rfl

/-- No pointer in the tree is null. -/
def Complete (t : Ty) : Prop := t.All (· ≠ null)

/-- What is known of a node that the decoder made: no name contains the letter that ends
it, every number has one digit, and a pointer points to something. -/
def Readable : Ty → Prop
  | object n => '"' ∉ n
  | pointer t => t ≠ null
  | array n _ => n < 10
  | struct n as => (∀ c ∈ n, c ≠ '=' ∧ c ≠ '}') ∧ ∀ a ∈ as, '"' ∉ a.1
  | union n as => (∀ c ∈ n, c ≠ '=') ∧ ∀ a ∈ as, '"' ∉ a.1
  | bitField n => n < 10
  | _ => True

end Ty

/-! ### The trees that the decoder makes -/

lemma notMem_takeWhile_ne (c : Char) (it : Str) : c ∉ it.takeWhile (· != c) := by
  intro h
  exact absurd (List.mem_takeWhile_imp h) (by simp)

lemma quote_notMem_readOptName (it : Str) : '"' ∉ (readOptName it).1 := by
  cases it with
  | nil => simp [readOptName]
  | cons c it =>
      rw [readOptName]
      split
      · exact notMem_takeWhile_ne '"' it
      · simp

/-- The number that `read_str_number` leaves has at most one digit. -/
lemma strtoull_readStrNumberFrom_lt {n : Str} (hn : strtoull n < 10) (it : Str) :
    strtoull (readStrNumberFrom n it).1 < 10 := by
  induction it generalizing n with
  | nil => exact hn
  | cons c it ih =>
      rw [readStrNumberFrom]
      split
      · rename_i hc
        have hlt := digit_value_lt hc
        -- the digit alone is carried on
        refine ih ?_
        rw [strtoull, Nat.ofDigitChars_cons, Nat.ofDigitChars_nil]
        omega
      · exact hn

lemma strtoull_readStrNumber_lt (it : Str) : strtoull (readStrNumber it).1 < 10 :=
  strtoull_readStrNumberFrom_lt (by decide) it

variable {proc : Reader Char Ty}

/-- The fields of a structure or union are readable when the types of the fields are. -/
lemma readable_processAttrs (hp : ∀ it, (proc it).1.All Ty.Readable) (delim : Char)
    (mk : List AttrTy → Ty)
    (hmk : ∀ as : List AttrTy, (∀ a ∈ as, '"' ∉ a.1 ∧ a.2.All Ty.Readable) →
      (mk as).All Ty.Readable) (it : Str) :
    (processAttrs proc delim mk it).1.All Ty.Readable := by
  have hattr : ∀ it, '"' ∉ (processAttr proc it).1.1 ∧
      (processAttr proc it).1.2.All Ty.Readable :=
    fun it => ⟨quote_notMem_readOptName it, hp _⟩
  have hloop := Reader.forall_mem_repeatUntil (atDelim delim)
    (P := fun a : AttrTy => '"' ∉ a.1 ∧ a.2.All Ty.Readable) hattr it
  simp only [processAttrs]
  split
  · exact hmk [] (by simp)
  · split
    · exact hmk _ hloop
    · trivial

lemma readable_processCode (hp : ∀ it, (proc it).1.All Ty.Readable) (c : Char) (it : Str) :
    (processCode proc c it).1.All Ty.Readable := by
  cases codeView c with
  | primitive p =>
      rw [processCode_code]
      trivial
  | cls | selector | unknown => trivial
  | array =>
      have hloop := Reader.forall_mem_repeatUntil (atDelim ']') hp (readStrNumber it).2
      simp only [processCode_array, processArray]
      split
      · trivial
      · split
        · refine ⟨strtoull_readStrNumber_lt it, ?_⟩
          cases hlast : (Reader.repeatUntil (atDelim ']') proc (readStrNumber it).2).1.getLast? with
          | none => trivial
          | some t => exact hloop t (List.mem_of_getLast? hlast)
        · trivial
  | struct =>
      have hname : ∀ c ∈ (skipChar '?' it).takeWhile fun c => c != '=' && c != '}',
          c ≠ '=' ∧ c ≠ '}' := fun c hc => by simpa using List.mem_takeWhile_imp hc
      rw [processCode_struct, processStructure]
      split
      · exact ⟨⟨hname, by simp⟩, trivial⟩
      · exact readable_processAttrs hp '}' (.struct _) (fun as has =>
          ⟨⟨hname, fun a ha => (has a ha).1⟩, Ty.allAttrs_iff.2 fun a ha => (has a ha).2⟩) _
  | union =>
      have hname : ∀ c ∈ (skipChar '?' it).takeWhile (· != '='), c ≠ '=' := fun c hc => by
        simpa using List.mem_takeWhile_imp hc
      exact readable_processAttrs hp ')' (.union _) (fun as has =>
        ⟨⟨hname, fun a ha => (has a ha).1⟩, Ty.allAttrs_iff.2 fun a ha => (has a ha).2⟩) _
  | bitField =>
      rw [processCode_bitField, processBitfield]
      split
      · trivial
      · exact strtoull_readStrNumber_lt it
  | pointer =>
      rw [processCode_pointer]
      by_cases h : it.head? = some '?'
      · rw [processPointer_void h]
        exact ⟨by simp [Ty.Readable], trivial⟩
      · rw [processPointer_of_ne h]
        split
        · trivial
        · rename_i hnull
          exact ⟨by simpa [Ty.Readable] using hnull, hp it⟩
  | object =>
      rw [processCode_object, processObject]
      split
      · trivial
      · exact quote_notMem_readOptName it
  | other hc =>
      rw [processCode_other hc]
      trivial

lemma readable_process (it : Str) : (process it).1.All Ty.Readable := by
  refine Reader.forall_fix (P := fun t : Ty => t.All Ty.Readable)
    (show Ty.All Ty.Readable .null from trivial) (fun p hp it => ?_) it
  rw [processStep]
  split
  · trivial
  · exact readable_processCode hp _ _

lemma readable_of_mem_decodeType {s : Str} {t : Ty} (h : t ∈ decodeType s) : t.All Ty.Readable :=
  Reader.forall_mem_repeatUntil List.isEmpty (fun _ => readable_process _) s t
    (List.mem_filter.1 h).1

/-! ### The printed form is an encoding -/

lemma isDigit_ne_at {c : Char} (h : isDigit c = true) : c ≠ '@' := by
  rintro rfl
  exact absurd h (by decide)

lemma getLast?_toDigits_ne (n : ℕ) (w : Str) : (w ++ Nat.toDigits 10 n).getLast? ≠ some '@' := by
  rw [List.getLast?_append_of_ne_nil _ Nat.toDigits_ne_nil]
  exact fun h => isDigit_ne_at ((isNumber_toDigits n).2 '@' (List.mem_of_getLast? h)) rfl

/-- The printer never writes a bare object. -/
lemma getLast?_print_ne (t : Ty) : t.print.getLast? ≠ some '@' := by
  induction t with
  | primitive p => cases p <;> decide
  | pointer t ih =>
      by_cases ht : t = .unknown
      · subst ht
        decide
      · rw [Ty.print_pointer_of_ne ht]
        cases hp : t.print with
        | nil => decide
        | cons c w =>
            rw [hp] at ih
            rwa [List.getLast?_cons_cons]
  | bitField n => exact getLast?_toDigits_ne n ['b']
  | object n | array n t ih | struct n as ih | union n as ih =>
      rw [Ty.print, List.getLast?_concat]
      decide
  | _ => decide

lemma juxtaposable_print (t : Ty) {rest : Str} (h : ∀ c ∈ rest.head?, isDigit c = false) :
    Juxtaposable t.print rest := by
  intro a ha b hb
  have hat : a ≠ '@' := by
    rintro rfl
    exact getLast?_print_ne t ha
  simp [hat, h b hb]

lemma nameText_printName (n : Str) : NameText n (printName n) := by
  rw [printName]
  split
  · exact Or.inl rfl
  · rename_i hn
    exact Or.inr ⟨rfl, fun h => hn (Or.inr h)⟩

/-- The attributes as fields, with their printed encodings. -/
def printedFields (as : List AttrTy) : List Field := as.map fun a => ⟨a.1, a.2, a.2.print⟩

@[simp] lemma fieldAttrs_printedFields (as : List AttrTy) :
    fieldAttrs (printedFields as) = as := by
  simp [fieldAttrs, printedFields, Function.comp_def]

@[simp] lemma fieldsText_printedFields (as : List AttrTy) :
    fieldsText (printedFields as) = Ty.printAttrs as := by
  induction as with
  | nil => rfl
  | cons a as ih =>
      simp only [fieldsText, printedFields, List.map_cons, List.flatMap_cons] at ih ⊢
      rw [ih, Ty.printAttrs]
      rfl

/-- The text of a list of fields does not start with a digit. -/
lemma head_printAttrs {as : List AttrTy} (has : ∀ a ∈ as, Encodes a.2 a.2.print) :
    ∀ c ∈ (Ty.printAttrs as).head?, isDigit c = false := by
  cases as with
  | nil => simp [Ty.printAttrs]
  | cons a as =>
      obtain ⟨c, w, hw, hc⟩ := (has a List.mem_cons_self).exists_cons
      intro d hd
      rw [Ty.printAttrs, printFieldName] at hd
      split at hd
      · obtain rfl : c = d := by simpa [hw] using hd
        exact hc.isDigit
      · obtain rfl : '"' = d := by simpa using hd
        rfl

lemma fieldsJuxtaposable_printedFields {as : List AttrTy} (hn : ∀ a ∈ as, '"' ∉ a.1)
    (has : ∀ a ∈ as, Encodes a.2 a.2.print) : FieldsJuxtaposable (printedFields as) := by
  induction as with
  | nil => trivial
  | cons a as ih =>
      rw [List.forall_mem_cons] at hn has
      refine ⟨hn.1, ?_, ih hn.2 has.2⟩
      have htext : fieldsText (printedFields as) = Ty.printAttrs as := fieldsText_printedFields as
      exact htext ▸ juxtaposable_print a.2 (head_printAttrs has.2)

lemma encodes_printedFields {as : List AttrTy} (has : ∀ a ∈ as, Encodes a.2 a.2.print) :
    ∀ f ∈ printedFields as, Encodes f.type f.code := by
  intro f hf
  obtain ⟨a, ha, rfl⟩ := List.mem_map.1 hf
  exact has a ha

/-- **The printed form of a readable tree without null children is an encoding of it.** -/
lemma encodes_print {t : Ty} (hr : t.All Ty.Readable) (hc : t.Complete) : Encodes t t.print := by
  induction t with
  | null => exact absurd rfl hc.self
  | primitive p => exact .primitive p
  | selector => exact .selector
  | unknown => exact .unknown
  | cls => exact .cls
  | block => exact .block
  | object n => exact .object hr
  | bitField n =>
      have h := Encodes.bitField (isNumber_toDigits n)
      rwa [Nat.ofDigitChars_ten_toDigits] at h
  | array n t ih =>
      have h := Encodes.array (isNumber_toDigits n) (ih hr.2 hc.2)
      rwa [Nat.ofDigitChars_ten_toDigits] at h
  | pointer t ih =>
      have ht := ih hr.2 hc.2
      by_cases hu : t = .unknown
      · -- the qualifier keeps `^?` from being read as a pointer to void
        subst hu
        exact .pointer (by decide) (.qualified (by decide) .unknown)
      · rw [Ty.print_pointer_of_ne hu]
        -- nothing but the unknown type is printed with a question mark in front
        refine .pointer (fun h => hu ?_) ht
        cases t with
        | unknown => rfl
        | primitive p => cases p <;> exact absurd h (by decide)
        | pointer t => cases t <;> exact absurd h (by simp [Ty.print])
        | _ => exact absurd h (by simp [Ty.print])
  | struct n as ih =>
      have has : ∀ a ∈ as, Encodes a.2 a.2.print := fun a ha =>
        ih a ha (Ty.allAttrs_iff.1 hr.2 a ha) (Ty.allAttrs_iff.1 hc.2 a ha)
      have h := Encodes.struct hr.1.1 (nameText_printName n) (encodes_printedFields has)
        (fieldsJuxtaposable_printedFields hr.1.2 has)
      rwa [fieldAttrs_printedFields, fieldsText_printedFields] at h
  | union n as ih =>
      have has : ∀ a ∈ as, Encodes a.2 a.2.print := fun a ha =>
        ih a ha (Ty.allAttrs_iff.1 hr.2 a ha) (Ty.allAttrs_iff.1 hc.2 a ha)
      have h := Encodes.union hr.1.1 (nameText_printName n) (encodes_printedFields has)
        (fieldsJuxtaposable_printedFields hr.1.2 has)
      rwa [fieldAttrs_printedFields, fieldsText_printedFields] at h

lemma Renders.head {ts : List Ty} {w : Str} (h : Renders ts w) :
    ∀ c ∈ w.head?, isDigit c = false := by
  cases h with
  | nil => simp
  | cons ht =>
      rw [List.append_assoc]
      exact ht.isDigit_head _

lemma renders_print {ts : List Ty} (hr : ∀ t ∈ ts, t.All Ty.Readable) (hc : ∀ t ∈ ts, t.Complete) :
    Renders ts (ts.flatMap Ty.print) := by
  induction ts with
  | nil => exact .nil
  | cons t ts ih =>
      rw [List.forall_mem_cons] at hr hc
      have ht := encodes_print hr.1 hc.1
      have hts := ih hr.2 hc.2
      have hj : Juxtaposable t.print ([] ++ ts.flatMap Ty.print) := juxtaposable_print t hts.head
      have h := Renders.cons ht (by simp) hj hts
      rwa [List.append_nil, ← List.flatMap_cons] at h

/-- One digit is its own last digit. -/
lemma lastDigits_of_readable {t : Ty} (h : t.All Ty.Readable) : t.lastDigits = t := by
  rw [Ty.lastDigits, Ty.mapNumbers_eq_self_iff]
  induction t with
  | array n t ih => exact ⟨Nat.mod_eq_of_lt h.1, ih h.2⟩
  | bitField n => exact Nat.mod_eq_of_lt h
  | pointer t ih => exact ⟨trivial, ih h.2⟩
  | struct n as ih | union n as ih =>
      exact ⟨trivial, Ty.allAttrs_iff.2 fun a ha => ih a ha (Ty.allAttrs_iff.1 h.2 a ha)⟩
  | _ => trivial

/-- **Printing what was decoded and decoding it again changes nothing**, for every string whose
trees have no null child. -/
theorem decodeType_print {s : Str} (hc : ∀ t ∈ decodeType s, t.Complete) :
    decodeType ((decodeType s).flatMap Ty.print) = decodeType s := by
  have hr : ∀ t ∈ decodeType s, t.All Ty.Readable := fun t ht => readable_of_mem_decodeType ht
  rw [decodeType_eq (renders_print hr hc)]
  nth_rewrite 2 [← List.map_id (decodeType s)]
  exact List.map_congr_left fun t ht => lastDigits_of_readable (hr t ht)

/-- The string `{??="a"@""i}3^?[12D7*]` decodes to a structure named `?` and more. -/
theorem decodeType_print_malformed :
    decodeType ((decodeType ['{', '?', '?', '=', '"', 'a', '"', '@', '"', '"', 'i', '}', '3', '^',
        '?', '[', '1', '2', 'D', '7', '*', ']']).flatMap Ty.print) =
      [.struct ['?'] [(['a'], .object []), ([], .primitive .int)], .pointer (.primitive .void),
        .array 2 (.primitive .cstring)] := by
  have hdecode : decodeType ['{', '?', '?', '=', '"', 'a', '"', '@', '"', '"', 'i', '}', '3', '^',
      '?', '[', '1', '2', 'D', '7', '*', ']'] =
      [.struct ['?'] [(['a'], .object []), ([], .primitive .int)], .pointer (.primitive .void),
        .array 2 (.primitive .cstring)] := rfl
  have h := decodeType_print (s := ['{', '?', '?', '=', '"', 'a', '"', '@', '"', '"', 'i', '}', '3',
    '^', '?', '[', '1', '2', 'D', '7', '*', ']']) (by
      rw [hdecode]
      simp [Ty.Complete, Ty.All, Ty.AllAttrs])
  rwa [hdecode] at h ⊢

end ICDump
