/-
The grammar of type encodings, and what the decoder makes of a derivation.

`Encodes t w` says that the string `w` is an encoding of the tree `t`, and
`Renders ts w` that `w` is the signature made of encodings of the trees of `ts`,
each followed by the digits of an optional offset.  The relation says nothing about
the decoder: it is the notation that the compiler writes.

The decoder looks one letter ahead, so an encoding can be followed by anything but
a letter that its last letter would swallow.  There are two such pairs: a quote or
a question mark after a bare `@`, and a digit after the width of a bit-field.  They
are the content of `Juxtaposable`.

The main result is `process_append`: in front of any continuation that can follow
it, an encoding of `t` is read as `t`, with the last digit of every number in place
of the number.
-/
import ICDump.Encoding.Equations

namespace ICDump

/-! ### The grammar -/

/-- The text `w` can be followed by `rest`: the first letter of `rest` is not swallowed
by a bare object or a bit-field at the end of `w`. -/
def Juxtaposable (w rest : Str) : Prop :=
  ∀ a ∈ w.getLast?, ∀ b ∈ rest.head?,
    ¬ (a = '@' ∧ (b = '"' ∨ b = '?')) ∧ ¬ (isDigit a = true ∧ isDigit b = true)

/-- The text between the opening bracket and the `=` of a structure or union.  A leading
question mark is not part of the name. -/
def NameText (name text : Str) : Prop :=
  text = '?' :: name ∨ text = name ∧ name.head? ≠ some '?'

/-- A field of a structure or union: its name, its type and the encoding of its type. -/
structure Field where
  name : Str
  type : Ty
  code : Str

/-- The text of a field.  An empty name is not written. -/
def Field.text (f : Field) : Str :=
  (if f.name = [] then [] else '"' :: f.name ++ ['"']) ++ f.code

/-- The text of a list of fields. -/
def fieldsText (fs : List Field) : Str := fs.flatMap Field.text

/-- The attributes that a list of fields denotes. -/
def fieldAttrs (fs : List Field) : List AttrTy := fs.map fun f => (f.name, f.type)

/-- The names contain no quote, and the encodings can be followed by the fields that
come after them. -/
def FieldsJuxtaposable : List Field → Prop
  | [] => True
  | f :: fs => '"' ∉ f.name ∧ Juxtaposable f.code (fieldsText fs) ∧ FieldsJuxtaposable fs

/-- A number written in decimal. -/
def IsNumber (ds : Str) : Prop := ds ≠ [] ∧ ∀ d ∈ ds, isDigit d = true

/-- `Encodes t w`: the string `w` is an encoding of the tree `t`. -/
inductive Encodes : Ty → Str → Prop
  | primitive (p : Primitive) : Encodes (.primitive p) [p.code]
  | cls : Encodes .cls ['#']
  | selector : Encodes .selector [':']
  | unknown : Encodes .unknown ['?']
  | block : Encodes .block ['@', '?']
  | bareObject : Encodes (.object []) ['@']
  | object {n : Str} (hn : '"' ∉ n) : Encodes (.object n) ('@' :: '"' :: n ++ ['"'])
  | voidPointer : Encodes (.pointer (.primitive .void)) ['^', '?']
  | pointer {t : Ty} {w : Str} (hw : w.head? ≠ some '?') (ht : Encodes t w) :
      Encodes (.pointer t) ('^' :: w)
  | array {t : Ty} {w ds : Str} (hds : IsNumber ds) (ht : Encodes t w) :
      Encodes (.array (Nat.ofDigitChars 10 ds 0) t) ('[' :: ds ++ w ++ [']'])
  | bitField {ds : Str} (hds : IsNumber ds) :
      Encodes (.bitField (Nat.ofDigitChars 10 ds 0)) ('b' :: ds)
  | struct {n text : Str} {fs : List Field} (hn : ∀ c ∈ n, c ≠ '=' ∧ c ≠ '}')
      (htext : NameText n text) (hfs : ∀ f ∈ fs, Encodes f.type f.code)
      (hj : FieldsJuxtaposable fs) :
      Encodes (.struct n (fieldAttrs fs)) ('{' :: text ++ '=' :: fieldsText fs ++ ['}'])
  | union {n text : Str} {fs : List Field} (hn : ∀ c ∈ n, c ≠ '=')
      (htext : NameText n text) (hfs : ∀ f ∈ fs, Encodes f.type f.code)
      (hj : FieldsJuxtaposable fs) :
      Encodes (.union n (fieldAttrs fs)) ('(' :: text ++ '=' :: fieldsText fs ++ [')'])
  | qualified {q : Char} {t : Ty} {w : Str} (hq : specifier q ≠ .unknown) (ht : Encodes t w) :
      Encodes t (q :: w)

/-- `Renders ts w`: the string `w` is a signature made of encodings of the trees of `ts`
and of offsets. -/
inductive Renders : List Ty → Str → Prop
  | nil : Renders [] []
  | cons {t : Ty} {ts : List Ty} {w ds rest : Str} (ht : Encodes t w)
      (hds : ∀ d ∈ ds, isDigit d = true) (hj : Juxtaposable w (ds ++ rest))
      (hts : Renders ts rest) : Renders (t :: ts) (w ++ ds ++ rest)

/-! ### The letters of an encoding -/

lemma isDigit_of_specifier {c : Char} (h : specifier c ≠ .unknown) : isDigit c = false := by
  by_contra hd
  refine h ?_
  unfold specifier
  split <;> first | rfl | exact absurd rfl hd

lemma specifier_of_isDigit {c : Char} (h : isDigit c = true) : specifier c = .unknown := by
  by_contra hs
  rw [isDigit_of_specifier hs] at h
  exact absurd h (by simp)

/-- The letters that an encoding can start with are neither digits nor delimiters. -/
structure StartLetter (c : Char) : Prop where
  isDigit : isDigit c = false
  ne_quote : c ≠ '"'
  ne_brace : c ≠ '}'
  ne_paren : c ≠ ')'

lemma startLetter_of_specifier {c : Char} (h : specifier c ≠ .unknown) : StartLetter c where
  isDigit := isDigit_of_specifier h
  ne_quote := by rintro rfl; exact h rfl
  ne_brace := by rintro rfl; exact h rfl
  ne_paren := by rintro rfl; exact h rfl

lemma startLetter_code (p : Primitive) : StartLetter p.code := by
  cases p <;> exact ⟨rfl, by decide, by decide, by decide⟩

lemma Encodes.exists_cons {t : Ty} {w : Str} (h : Encodes t w) :
    ∃ c w', w = c :: w' ∧ StartLetter c := by
  cases h with
  | primitive p => exact ⟨_, _, rfl, startLetter_code p⟩
  | qualified hq ht => exact ⟨_, _, rfl, startLetter_of_specifier hq⟩
  | _ => exact ⟨_, _, rfl, rfl, by decide, by decide, by decide⟩

/-- Digits in front of an encoding do not run on into it. -/
lemma Encodes.isDigit_head {t : Ty} {w : Str} (h : Encodes t w) (rest : Str) :
    ∀ c ∈ (w ++ rest).head?, isDigit c = false := by
  obtain ⟨c, w', rfl, hc⟩ := h.exists_cons
  intro b hb
  obtain rfl : c = b := by simpa using hb
  exact hc.isDigit

lemma Encodes.ne_nil {t : Ty} {w : Str} (h : Encodes t w) : w ≠ [] := by
  obtain ⟨c, w', rfl, -⟩ := h.exists_cons
  exact List.cons_ne_nil c w'

lemma Encodes.ne_null {t : Ty} {w : Str} (h : Encodes t w) : t ≠ .null := by
  induction h with
  | qualified _ _ ih => exact ih
  | _ => simp

lemma juxtaposable_nil (w : Str) : Juxtaposable w [] := by
  intro a _ b hb
  exact absurd hb (by simp)

/-- Nothing swallows a closing delimiter. -/
lemma juxtaposable_delim (w rest : Str) {c : Char} (hc : isDigit c = false) (hq : c ≠ '"')
    (hu : c ≠ '?') : Juxtaposable w (c :: rest) := by
  intro a _ b hb
  obtain rfl : c = b := by simpa using hb
  simp [hq, hu, hc]

lemma Juxtaposable.append {w x rest : Str} {c : Char} (h : Juxtaposable w x)
    (hc : Juxtaposable w (c :: rest)) : Juxtaposable w (x ++ c :: rest) := by
  cases x with
  | nil => exact hc
  | cons b x => exact fun a ha b' hb' => h a ha b' (by simpa using hb')

/-- What can follow the tail of a text can follow the text. -/
lemma Juxtaposable.tail {c : Char} {w rest : Str} (hw : w ≠ []) (h : Juxtaposable (c :: w) rest) :
    Juxtaposable w rest := by
  intro a ha
  refine h a ?_
  rw [List.getLast?_cons_of_ne_nil hw]
  exact ha

/-! ### Tokens in front of a continuation -/

lemma takeWhile_append_cons {p : Char → Bool} {l rest : Str} {c : Char}
    (hl : ∀ a ∈ l, p a = true) (hc : p c = false) : (l ++ c :: rest).takeWhile p = l := by
  rw [List.takeWhile_append_of_pos hl, List.takeWhile_cons_of_neg (by simp [hc]), List.append_nil]

lemma dropWhile_append_cons {p : Char → Bool} {l rest : Str} {c : Char}
    (hl : ∀ a ∈ l, p a = true) (hc : p c = false) :
    (l ++ c :: rest).dropWhile p = c :: rest := by
  rw [List.dropWhile_append_of_pos hl, List.dropWhile_cons_of_neg (by simp [hc])]

lemma readOptName_quoted {n : Str} (hn : '"' ∉ n) (rest : Str) :
    readOptName ('"' :: n ++ '"' :: rest) = (n, rest) := by
  have hmem : ∀ a ∈ n, (a != '"') = true := fun a ha => by
    simpa using ne_of_mem_of_not_mem ha hn
  simp [readOptName, takeWhile_append_cons hmem, dropWhile_append_cons hmem, skipChar]

lemma readOptName_of_ne {c : Char} (hc : c ≠ '"') (it : Str) :
    readOptName (c :: it) = ([], c :: it) := if_neg hc

/-- The loop of `read_str_number` is left with the last of the digits it reads. -/
lemma readStrNumberFrom_append {ds rest : Str} (n : Str) (hds : ∀ d ∈ ds, isDigit d = true)
    (hrest : ∀ c ∈ rest.head?, isDigit c = false) :
    readStrNumberFrom n (ds ++ rest) = ((ds.getLast?.map fun d => [d]).getD n, rest) := by
  induction ds generalizing n with
  | nil =>
      cases rest with
      | nil => rfl
      | cons c rest => simp [readStrNumberFrom, hrest c rfl]
  | cons d ds ih =>
      rw [List.forall_mem_cons] at hds
      rw [List.cons_append, readStrNumberFrom, if_pos hds.1, ih [d] hds.2]
      cases ds with
      | nil => rfl
      | cons e ds => simp [List.getLast?_eq_some_getLast (List.cons_ne_nil e ds)]

lemma digit_value_lt {d : Char} (hd : isDigit d = true) : d.toNat - '0'.toNat < 10 := by
  simp only [isDigit, Bool.and_eq_true, decide_eq_true_eq, Char.le_def,
    UInt32.le_iff_toNat_le] at hd
  have h9 : d.toNat ≤ '9'.toNat := hd.2
  have h : '9'.toNat - '0'.toNat < 10 := by decide
  omega

/-- `read_str_number` and `strtoull` together: a number is read as its last digit. -/
lemma readStrNumber_append {ds : Str} (hds : IsNumber ds) (rest : Str)
    (hrest : ∀ c ∈ rest.head?, isDigit c = false) :
    ∃ n, n ≠ [] ∧ readStrNumber (ds ++ rest) = (n, rest) ∧
      strtoull n = Nat.ofDigitChars 10 ds 0 % 10 := by
  obtain ⟨d, hd⟩ : ∃ d, ds.getLast? = some d := ⟨_, List.getLast?_eq_some_getLast hds.1⟩
  have hlast : ds = ds.dropLast ++ [d] := by
    rw [List.dropLast_append_getLast? d hd]
  have hlt : d.toNat - '0'.toNat < 10 := digit_value_lt (hds.2 d (List.mem_of_getLast? hd))
  refine ⟨[d], by simp, ?_, ?_⟩
  · rw [readStrNumber, readStrNumberFrom_append [] hds.2 hrest, hd]
    rfl
  · have hsize : 10 < UInt64.size := by decide
    rw [hlast, Nat.ofDigitChars_append, Nat.ofDigitChars_cons, Nat.ofDigitChars_nil, strtoull,
      Nat.ofDigitChars_cons, Nat.ofDigitChars_nil]
    omega

lemma process_digits {ds : Str} (hds : ∀ d ∈ ds, isDigit d = true) (it : Str) :
    process (ds ++ it) = process it := by
  simp only [process_eq, processStep, skipDigits, List.dropWhile_append_of_pos hds]

lemma process_code {c : Char} (hd : isDigit c = false) (hs : specifier c = .unknown) (it : Str) :
    process (c :: it) = processCode process c it := by
  simp [process_eq, processStep, skipDigits, hd, processSpecifiers, hs]

/-- A qualifier is skipped, unless digits come after it. -/
lemma process_specifier {q : Char} (hq : specifier q ≠ .unknown) {it : Str}
    (hit : ∀ c ∈ it.head?, isDigit c = false) : process (q :: it) = process it := by
  have hskip : skipDigits it = it := by
    cases it with
    | nil => rfl
    | cons c it => simp [skipDigits, hit c rfl]
  rw [process_eq, process_eq, processStep, processStep, hskip]
  simp [skipDigits, isDigit_of_specifier hq, processSpecifiers, hq]

end ICDump
