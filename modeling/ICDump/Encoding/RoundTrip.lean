/-
Decoding what the grammar derives.

`process_append` is proved by induction on the derivation, for an arbitrary
continuation.  The only part of a tree that is not read back is a number: the
decoder keeps its last digit (`lastDigits`).  Everything else follows:

* `decodeType_shape` -- a signature is decoded into its list of trees, up to the
  numbers;
* `decodeType_numbers` -- the numbers themselves are read back exactly when they
  have one digit.
-/
import ICDump.Encoding.Grammar

namespace ICDump

/-- The tree with every number replaced by its last decimal digit. -/
def Ty.lastDigits (t : Ty) : Ty := t.mapNumbers (· % 10)

lemma Ty.lastDigits_eq_null_iff {t : Ty} : t.lastDigits = .null ↔ t = .null := by
  cases t <;> simp [lastDigits, mapNumbers]

/-! ### Composite types -/

/-- The loop on the fields of a structure or union reads the fields back. -/
lemma repeatUntil_fieldsText {delim : Char} (hb : delim = '}' ∨ delim = ')') {fs : List Field}
    (hfs : ∀ f ∈ fs, Encodes f.type f.code) (hj : FieldsJuxtaposable fs) (rest : Str)
    (ih : ∀ f ∈ fs, ∀ rest, Juxtaposable f.code rest →
      process (f.code ++ rest) = (f.type.lastDigits, rest)) :
    Reader.repeatUntil (atDelim delim) (processAttr process) (fieldsText fs ++ delim :: rest) =
      (fs.map fun f => (f.name, f.type.lastDigits), delim :: rest) := by
  induction fs with
  | nil => exact Reader.repeatUntil_of_stop (by simp [atDelim, fieldsText])
  | cons f fs ihs =>
      rw [List.forall_mem_cons] at hfs ih
      obtain ⟨hq, hjf, hj⟩ := hj
      obtain ⟨c, w, hw, hc⟩ := hfs.1.exists_cons
      have hdelim : ∀ x, Juxtaposable x (delim :: rest) := fun x => by
        rcases hb with rfl | rfl <;> exact juxtaposable_delim x rest rfl (by decide) (by decide)
      have hne : c ≠ delim := by
        rcases hb with rfl | rfl
        · exact hc.ne_brace
        · exact hc.ne_paren
      have htext : fieldsText (f :: fs) ++ delim :: rest =
          f.text ++ (fieldsText fs ++ delim :: rest) := by
        simp [fieldsText]
      have hproc : process (f.code ++ (fieldsText fs ++ delim :: rest)) =
          (f.type.lastDigits, fieldsText fs ++ delim :: rest) :=
        ih.1 _ (hjf.append (hdelim f.code))
      have hattr : processAttr process (f.text ++ (fieldsText fs ++ delim :: rest)) =
          ((f.name, f.type.lastDigits), fieldsText fs ++ delim :: rest) := by
        by_cases hn : f.name = []
        · have hname : readOptName (f.code ++ (fieldsText fs ++ delim :: rest)) =
              ([], f.code ++ (fieldsText fs ++ delim :: rest)) := by
            rw [hw]
            exact readOptName_of_ne hc.ne_quote _
          simp [Field.text, hn, processAttr, hname, hproc]
        · have hname := readOptName_quoted hq (f.code ++ (fieldsText fs ++ delim :: rest))
          have htext' : f.text ++ (fieldsText fs ++ delim :: rest) =
              '"' :: f.name ++ '"' :: (f.code ++ (fieldsText fs ++ delim :: rest)) := by
            simp [Field.text, hn]
          simp only [processAttr, htext', hname, hproc]
      have hstop : atDelim delim (f.text ++ (fieldsText fs ++ delim :: rest)) = false := by
        by_cases hn : f.name = []
        · simp [Field.text, hn, hw, atDelim, hne]
        · rcases hb with rfl | rfl <;> simp [Field.text, hn, atDelim]
      rw [htext, Reader.repeatUntil_of_not_stop rfl processAttr_advances hstop, hattr,
        ihs hfs.2 hj ih.2]
      rfl

/-- The fields of a structure or union, with the letter before them. -/
lemma processAttrs_append {delim : Char} (hb : delim = '}' ∨ delim = ')') {fs : List Field}
    (hfs : ∀ f ∈ fs, Encodes f.type f.code) (hj : FieldsJuxtaposable fs)
    (mk : List AttrTy → Ty) (rest : Str)
    (ih : ∀ f ∈ fs, ∀ rest, Juxtaposable f.code rest →
      process (f.code ++ rest) = (f.type.lastDigits, rest)) :
    processAttrs process delim mk (fieldsText fs ++ delim :: rest) =
      (mk (fs.map fun f => (f.name, f.type.lastDigits)), rest) := by
  have hloop := repeatUntil_fieldsText hb hfs hj rest ih
  cases fs with
  | nil => simp [processAttrs, fieldsText]
  | cons f fs =>
      have hhead : (fieldsText (f :: fs) ++ delim :: rest).head? ≠ some delim := by
        intro hh
        have hstop : atDelim delim (fieldsText (f :: fs) ++ delim :: rest) = true := by
          obtain ⟨c, l, hl⟩ : ∃ c l, fieldsText (f :: fs) ++ delim :: rest = c :: l :=
            List.exists_cons_of_ne_nil (by simp)
          rw [hl] at hh ⊢
          simpa [atDelim] using hh
        rw [Reader.repeatUntil_of_stop hstop] at hloop
        exact absurd (congrArg Prod.fst hloop) (by simp)
      simp only [processAttrs, if_neg hhead, hloop, List.head?_cons, if_true, List.tail_cons]

/-- Past the opening bracket and an optional question mark there is the name. -/
lemma skipChar_nameText {name text : Str} {c : Char} (h : NameText name text) (hc : c ≠ '?')
    (rest : Str) : skipChar '?' (text ++ c :: rest) = name ++ c :: rest := by
  rcases h with rfl | ⟨rfl, hne⟩
  · simp [skipChar]
  · cases text with
    | nil => simp [skipChar, hc]
    | cons d text =>
        have hd : d ≠ '?' := by simpa using hne
        simp [skipChar, hd]

lemma fieldAttrs_lastDigits (fs : List Field) :
    Ty.mapNumbersAttrs (· % 10) (fieldAttrs fs) = fs.map fun f => (f.name, f.type.lastDigits) := by
  rw [Ty.mapNumbersAttrs_eq, fieldAttrs, List.map_map]
  rfl

/-! ### Types -/

/-- An array is read with the last digit of its dimension, whatever its element is. -/
lemma process_array {t : Ty} {ds e rest : Str} (hds : IsNumber ds)
    (he : ∀ c ∈ e.head?, isDigit c = false)
    (hproc : process (e ++ ']' :: rest) = (t, ']' :: rest)) (ht : t ≠ .null) :
    process ('[' :: ds ++ e ++ ']' :: rest) = (.array (Nat.ofDigitChars 10 ds 0 % 10) t, rest) := by
  have hhead : ∀ c ∈ (e ++ ']' :: rest).head?, isDigit c = false := by
    cases e with
    | nil =>
        intro c hc
        obtain rfl : ']' = c := by simpa using hc
        rfl
    | cons c e => simpa using he
  obtain ⟨n, hn, hread, hnum⟩ := readStrNumber_append hds _ hhead
  -- a text that starts with the bracket would be read as null
  have hstop : atDelim ']' (e ++ ']' :: rest) = false := by
    by_contra hs
    obtain ⟨l, hl⟩ : ∃ l, e ++ ']' :: rest = ']' :: l := by
      cases e with
      | nil => exact ⟨rest, rfl⟩
      | cons c e =>
          obtain rfl : c = ']' := by simpa [atDelim] using hs
          exact ⟨_, rfl⟩
    rw [hl, process_code rfl rfl] at hproc
    exact ht (congrArg Prod.fst hproc).symm
  have hloop : Reader.repeatUntil (atDelim ']') process (e ++ ']' :: rest) =
      ([t], ']' :: rest) := by
    rw [Reader.repeatUntil_of_not_stop rfl process_advances hstop, hproc,
      Reader.repeatUntil_of_stop (by simp [atDelim])]
  have htext : '[' :: ds ++ e ++ ']' :: rest = '[' :: (ds ++ (e ++ ']' :: rest)) := by simp
  rw [htext, process_code rfl rfl, processCode_array]
  simp [processArray, hread, hn, hloop, hnum]

/-- A bit-field is read with the last digit of its width. -/
lemma process_bitField {ds rest : Str} (hds : IsNumber ds)
    (hrest : ∀ c ∈ rest.head?, isDigit c = false) :
    process ('b' :: ds ++ rest) = (.bitField (Nat.ofDigitChars 10 ds 0 % 10), rest) := by
  obtain ⟨n, hn, hread, hnum⟩ := readStrNumber_append hds rest hrest
  rw [List.cons_append, process_code rfl rfl, processCode_bitField]
  simp [processBitfield, hread, hn, hnum]

/-- The name of a structure runs to the sign in front of the fields. -/
lemma process_struct {n text : Str} (hn : ∀ c ∈ n, c ≠ '=' ∧ c ≠ '}') (htext : NameText n text)
    (body : Str) :
    process ('{' :: text ++ '=' :: body) = processAttrs process '}' (.struct n) body := by
  have hmem : ∀ c ∈ n, (c != '=' && c != '}') = true := fun c hc => by simpa using hn c hc
  rw [List.cons_append, process_code rfl rfl, processCode_struct, processStructure,
    skipChar_nameText htext (by decide), takeWhile_append_cons hmem rfl,
    dropWhile_append_cons hmem rfl]
  simp [skipChar]

/-- The name of a union runs to the sign in front of the fields. -/
lemma process_union {n text : Str} (hn : ∀ c ∈ n, c ≠ '=') (htext : NameText n text)
    (body : Str) :
    process ('(' :: text ++ '=' :: body) = processAttrs process ')' (.union n) body := by
  have hmem : ∀ c ∈ n, (c != '=') = true := fun c hc => by simpa using hn c hc
  rw [List.cons_append, process_code rfl rfl, processCode_union, processUnion,
    skipChar_nameText htext (by decide), takeWhile_append_cons hmem rfl,
    dropWhile_append_cons hmem rfl]
  simp [skipChar]

lemma process_object {n : Str} (hn : '"' ∉ n) (rest : Str) :
    process ('@' :: '"' :: n ++ '"' :: rest) = (.object n, rest) := by
  have hname := readOptName_quoted hn rest
  rw [List.cons_append, process_code rfl rfl, processCode_object, processObject,
    if_neg (by simp), hname]

/-- **An encoding is read as the tree it encodes, up to the last digits of its numbers**, in
front of any continuation that can follow it. -/
lemma process_append {t : Ty} {w : Str} (h : Encodes t w) :
    ∀ rest, Juxtaposable w rest → process (w ++ rest) = (t.lastDigits, rest) := by
  induction h with
  | primitive p =>
      intro rest _
      have hd := (startLetter_code p).isDigit
      have hs : specifier p.code = .unknown := by cases p <;> rfl
      rw [List.singleton_append, process_code hd hs, processCode_code]
      rfl
  | cls | selector | unknown =>
      intro rest _
      rw [List.singleton_append, process_code rfl rfl]
      rfl
  | block =>
      intro rest _
      rw [List.cons_append, process_code rfl rfl]
      rfl
  | bareObject =>
      intro rest hj
      rw [List.singleton_append, process_code rfl rfl, processCode_object, processObject]
      cases rest with
      | nil => rfl
      | cons c rest =>
          -- a quote would begin its name, and a question mark make it a block
          have hc := (hj '@' rfl c rfl).1
          have hq : c ≠ '"' := fun h => hc ⟨rfl, Or.inl h⟩
          have hu : c ≠ '?' := fun h => hc ⟨rfl, Or.inr h⟩
          simp [hu, readOptName_of_ne hq, Ty.lastDigits, Ty.mapNumbers]
  | object hn =>
      intro rest _
      rw [List.append_assoc, List.singleton_append, process_object hn]
      rfl
  | voidPointer =>
      intro rest _
      rw [List.cons_append, process_code rfl rfl]
      rfl
  | @pointer t w hw ht ih =>
      intro rest hj
      have hhead : (w ++ rest).head? ≠ some '?' := by
        rwa [List.head?_append_of_ne_nil _ ht.ne_nil]
      have hnull : t.lastDigits.isNull = false := by
        rw [Ty.isNull_eq_false_iff]
        exact mt Ty.lastDigits_eq_null_iff.1 ht.ne_null
      rw [List.cons_append, process_code rfl rfl, processCode_pointer, processPointer_of_ne hhead,
        ih rest (hj.tail ht.ne_nil), hnull]
      rfl
  | @array t w ds hds ht ih =>
      intro rest _
      have hhead : ∀ b ∈ w.head?, isDigit b = false := by simpa using ht.isDigit_head []
      -- the element is read in front of the closing bracket, which may follow anything
      have hproc := ih (']' :: rest) (juxtaposable_delim w rest rfl (by decide) (by decide))
      have hnull : t.lastDigits ≠ .null := mt Ty.lastDigits_eq_null_iff.1 ht.ne_null
      have htext : '[' :: ds ++ w ++ [']'] ++ rest = '[' :: ds ++ w ++ ']' :: rest := by simp
      rw [htext, process_array hds hhead hproc hnull]
      rfl
  | @bitField ds hds =>
      intro rest hj
      rw [process_bitField hds]
      · rfl
      · intro b hb
        obtain ⟨a, ha⟩ : ∃ a, ds.getLast? = some a := ⟨_, List.getLast?_eq_some_getLast hds.1⟩
        have hda := hds.2 a (List.mem_of_getLast? ha)
        have hlast : ('b' :: ds).getLast? = some a := by
          rw [List.getLast?_cons_of_ne_nil hds.1, ha]
        simpa [hda] using (hj a hlast b hb).2
  | @struct n text fs hn htext hfs hj ih =>
      intro rest _
      have hbody := processAttrs_append (Or.inl rfl) hfs hj (.struct n) rest ih
      have heq : '{' :: text ++ '=' :: fieldsText fs ++ ['}'] ++ rest =
          '{' :: text ++ '=' :: (fieldsText fs ++ '}' :: rest) := by simp
      rw [heq, process_struct hn htext, hbody, Ty.lastDigits, Ty.mapNumbers, fieldAttrs_lastDigits]
  | @union n text fs hn htext hfs hj ih =>
      intro rest _
      have hbody := processAttrs_append (Or.inr rfl) hfs hj (.union n) rest ih
      have heq : '(' :: text ++ '=' :: fieldsText fs ++ [')'] ++ rest =
          '(' :: text ++ '=' :: (fieldsText fs ++ ')' :: rest) := by simp
      rw [heq, process_union hn htext, hbody, Ty.lastDigits, Ty.mapNumbers, fieldAttrs_lastDigits]
  | @qualified q t w hq ht ih =>
      intro rest hj
      rw [List.cons_append, process_specifier hq (ht.isDigit_head rest),
        ih rest (hj.tail ht.ne_nil)]

/-! ### Signatures -/

/-- A digit encodes no type. -/
lemma processCode_digit {c : Char} (hc : isDigit c = true) (it : Str) :
    (processCode process c it).1 = .null := by
  cases codeView c with
  | primitive p => cases p <;> exact absurd hc (by decide)
  | other hc => rw [processCode_other hc]
  | _ => exact absurd hc (by decide)

/-- The qualifier that the loop of `decode_type` skips is one that `process` would skip. -/
lemma decodeStep_eq {it : Str} (h : (process it).1 ≠ .null) : decodeStep it = process it := by
  cases it with
  | nil => rfl
  | cons q it =>
      rw [decodeStep, processSpecifier]
      by_cases hq : specifier q = .unknown
      · rw [if_pos hq]
      · rw [if_neg hq]
        refine (process_specifier hq fun c hc => ?_).symm
        by_contra hdigit
        obtain ⟨it', rfl⟩ := List.head?_eq_some_iff.1 hc
        rw [Bool.not_eq_false] at hdigit
        -- digits behind a qualifier are not skipped, and `process` stops at the first
        have hcode : codeAt (q :: c :: it') = c :: it' := by
          simp [codeAt, skipDigits, isDigit_of_specifier hq, processSpecifiers, hq,
            specifier_of_isDigit hdigit]
        rw [process_of_codeAt hcode] at h
        exact h (processCode_digit hdigit it')

/-- The body of the loop of `decode_type`, on an encoding that offset digits come before. -/
lemma decodeStep_append {t : Ty} {w ds rest : Str} (h : Encodes t w)
    (hds : ∀ d ∈ ds, isDigit d = true) (hj : Juxtaposable w rest) :
    decodeStep (ds ++ (w ++ rest)) = (t.lastDigits, rest) := by
  have hproc := process_append h rest hj
  cases ds with
  | cons d ds =>
      have hd : specifier d = .unknown := specifier_of_isDigit (hds d List.mem_cons_self)
      rw [List.cons_append, decodeStep, processSpecifier, if_pos hd, ← List.cons_append,
        process_digits hds, hproc]
  | nil =>
      have hnull : (process (w ++ rest)).1 ≠ .null := by
        rw [hproc]
        exact mt Ty.lastDigits_eq_null_iff.1 h.ne_null
      rw [List.nil_append, decodeStep_eq hnull, hproc]

/-- Digits alone encode nothing. -/
lemma decodeType_digits {ds : Str} (hds : ∀ d ∈ ds, isDigit d = true) : decodeType ds = [] := by
  cases ds with
  | nil => rfl
  | cons d ds =>
      have hd : specifier d = .unknown := specifier_of_isDigit (hds d List.mem_cons_self)
      have hstep : decodeStep (d :: ds) = (.null, []) := by
        rw [decodeStep, processSpecifier, if_pos hd, ← List.append_nil (d :: ds),
          process_digits hds, process_nil]
      rw [decodeType_of_null hstep, decodeType_nil]

/-- The trees of a signature, with the last digits of their numbers. -/
lemma decodeType_eq {ts : List Ty} {w : Str} (h : Renders ts w) :
    decodeType w = ts.map Ty.lastDigits := by
  -- the loop sees the digits of an offset in front of the encoding that comes after them
  suffices hloop : ∀ ds : Str, (∀ d ∈ ds, isDigit d = true) →
      decodeType (ds ++ w) = ts.map Ty.lastDigits from hloop [] (by simp)
  induction h with
  | nil =>
      intro ds hds
      rw [List.append_nil, decodeType_digits hds, List.map_nil]
  | @cons t ts w ds' rest ht hds' hj hts ih =>
      intro ds hds
      have htext : ds ++ (w ++ ds' ++ rest) = ds ++ (w ++ (ds' ++ rest)) := by simp
      have hnull : t.lastDigits ≠ .null := mt Ty.lastDigits_eq_null_iff.1 ht.ne_null
      rw [htext, decodeType_of_ne_null (decodeStep_append ht hds hj) hnull, ih ds' hds',
        List.map_cons]

/-- **Round trip of signatures.**  A signature is decoded into the list of the trees it is made
of, up to array dimensions and bit-field widths. -/
theorem decodeType_shape {ts : List Ty} {w : Str} (h : Renders ts w) :
    (decodeType w).map Ty.shape = ts.map Ty.shape := by
  rw [decodeType_eq h, List.map_map]
  exact List.map_congr_left fun t _ => Ty.shape_mapNumbers _ t

/-- The signature `v16^{A="x"[12i]}0r@8`. -/
theorem decodeType_shape_method :
    (decodeType ['v', '1', '6', '^', '{', 'A', '=', '"', 'x', '"', '[', '1', '2', 'i', ']', '}',
        '0', 'r', '@', '8']).map Ty.shape =
      [.primitive .void, .pointer (.struct ['A'] [(['x'], .array 0 (.primitive .int))]),
        .object []] := by
  have harray : Encodes (.array 12 (.primitive .int)) ['[', '1', '2', 'i', ']'] :=
    @Encodes.array _ _ ['1', '2'] ⟨by simp, by simp [isDigit]⟩ (.primitive .int)
  have hstruct : Encodes (.struct ['A'] [(['x'], .array 12 (.primitive .int))])
      ['{', 'A', '=', '"', 'x', '"', '[', '1', '2', 'i', ']', '}'] :=
    @Encodes.struct ['A'] ['A'] [⟨['x'], .array 12 (.primitive .int), ['[', '1', '2', 'i', ']']⟩]
      (by simp) (Or.inr ⟨rfl, by simp⟩) (by simpa using harray)
      ⟨by simp, juxtaposable_nil _, trivial⟩
  have hobject : Renders [.object []] ['r', '@', '8'] :=
    @Renders.cons _ _ ['r', '@'] ['8'] _ (.qualified (by decide) .bareObject) (by simp [isDigit])
      (by simp [Juxtaposable, isDigit]) .nil
  have hpointer : Renders
      [.pointer (.struct ['A'] [(['x'], .array 12 (.primitive .int))]), .object []]
      ['^', '{', 'A', '=', '"', 'x', '"', '[', '1', '2', 'i', ']', '}', '0', 'r', '@', '8'] :=
    @Renders.cons _ _ _ ['0'] _ (.pointer (by simp) hstruct) (by simp [isDigit])
      (by simp [Juxtaposable, isDigit]) hobject
  exact decodeType_shape (@Renders.cons _ _ _ ['1', '6'] _ (.primitive .void) (by simp [isDigit])
    (by simp [Juxtaposable, Primitive.code, isDigit]) hpointer)

/-! ### Numbers -/

lemma isNumber_toDigits (n : ℕ) : IsNumber (Nat.toDigits 10 n) := by
  refine ⟨Nat.toDigits_ne_nil, fun d hd => ?_⟩
  have h := Nat.isDigit_of_mem_toDigits (by decide) (by decide) hd
  simpa [Char.isDigit, isDigit, Char.le_def] using h

/-- **A number is read back exactly when it has one digit.**  Wherever `process` is called on an
array or on a bit-field, and in every signature of the grammar at any depth. -/
theorem decodeType_numbers (n : ℕ) (rest : Str) :
    (∀ (t : Ty) (e : Str), (∀ c ∈ e.head?, isDigit c = false) →
      process (e ++ ']' :: rest) = (t, ']' :: rest) → t ≠ .null →
      (process ('[' :: Nat.toDigits 10 n ++ e ++ ']' :: rest) = (.array n t, rest) ↔ n < 10)) ∧
    ((∀ c ∈ rest.head?, isDigit c = false) →
      (process ('b' :: Nat.toDigits 10 n ++ rest) = (.bitField n, rest) ↔ n < 10)) ∧
    ∀ (ts : List Ty) (w : Str), Renders ts w →
      (decodeType w = ts ↔ ∀ t ∈ ts, t.AllNumbers (· < 10)) := by
  refine ⟨fun t e he hproc ht => ?_, fun hrest => ?_, fun ts w h => ?_⟩
  · rw [process_array (isNumber_toDigits n) he hproc ht, Nat.ofDigitChars_ten_toDigits]
    simp
  · rw [process_bitField (isNumber_toDigits n) hrest, Nat.ofDigitChars_ten_toDigits]
    simp
  · rw [decodeType_eq h]
    nth_rewrite 2 [← List.map_id ts]
    rw [List.map_inj_left]
    refine forall₂_congr fun t _ => ?_
    simp [Ty.lastDigits, Ty.mapNumbers_eq_self_iff]

/-- `[7i]` is an array of dimension 7, `b7` a bit-field of width 7. -/
theorem decodeType_numbers_seven :
    process ['[', '7', 'i', ']'] = (.array 7 (.primitive .int), []) ∧
      process ['b', '7'] = (.bitField 7, []) ∧
      decodeType ['b', '7'] = [.bitField 7] :=
  ⟨((decodeType_numbers 7 []).1 (.primitive .int) ['i'] (by simp [isDigit]) rfl (by simp)).2
      (by decide),
    ((decodeType_numbers 7 []).2.1 (by simp)).2 (by decide),
    ((decodeType_numbers 7 []).2.2 [.bitField 7] ['b', '7']
      (@Renders.cons _ _ ['b', '7'] [] [] (@Encodes.bitField ['7'] ⟨by simp, by simp [isDigit]⟩)
        (by simp) (juxtaposable_nil _) .nil)).2
      (by simp [Ty.AllNumbers, Ty.All, Ty.NumberOk])⟩

/-- The array `[12i]` is read with dimension 2, the bit-field `b12` with width 2. -/
theorem decodeType_twelve :
    decodeType ('[' :: Nat.toDigits 10 12 ++ ['i', ']']) = [.array 2 (.primitive .int)] ∧
      decodeType ('b' :: Nat.toDigits 10 12) = [.bitField 2] ∧
      ¬ (decodeType ('[' :: Nat.toDigits 10 12 ++ ['i', ']']) = [.array 12 (.primitive .int)] ∧
        decodeType ('b' :: Nat.toDigits 10 12) = [.bitField 12]) := by
  have harray : decodeType ('[' :: Nat.toDigits 10 12 ++ ['i', ']']) =
      [.array 2 (.primitive .int)] := rfl
  have hbitField : decodeType ('b' :: Nat.toDigits 10 12) = [.bitField 2] := rfl
  refine ⟨harray, hbitField, fun h => ?_⟩
  rw [harray] at h
  simp at h

end ICDump
