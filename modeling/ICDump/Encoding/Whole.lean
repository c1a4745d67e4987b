/-
Strings that are one encoding.

`IsEncoding w` is the grammar of the encodings that `process` reads, as a property of strings.
`SkipsAt` says that `process`, called at a cursor, passes over something that does not belong to an
encoding: digits, a letter that encodes no type, a second element of an array, or the end of the
string in a place where a bracket or a name should be closed.

Where nothing is skipped, there is an encoding (`encodingAt_process`), and in an encoding nothing is
skipped (`IsEncoding.read`).  So the strings that consist of one encoding, with the digits of an
offset behind it, are those with one type in which nothing is skipped (`whole_iff`).
-/
import ICDump.Encoding.Calls
import ICDump.Encoding.RoundTrip
import Mathlib.Data.List.TakeWhile

namespace ICDump

/-! ### The grammar -/

/-- The text of the name of a field, between quotes.  It may be missing. -/
def IsNameText (n : Str) : Prop := n = [] ∨ ∃ m, '"' ∉ m ∧ n = '"' :: m ++ ['"']

/-- The text of fields, each with its name and its encoding. -/
def bodyText (fs : List (Str × Str)) : Str := fs.flatMap fun f => f.1 ++ f.2

/-- The encodings can be followed by the fields that come after them. -/
def Apart : List (Str × Str) → Prop
  | [] => True
  | f :: fs => Juxtaposable f.2 (bodyText fs) ∧ Apart fs

/-- `IsEncoding w`: the string `w` is one complete encoding. -/
inductive IsEncoding : Str → Prop
  | primitive (p : Primitive) : IsEncoding [p.code]
  | cls : IsEncoding ['#']
  | selector : IsEncoding [':']
  | unknown : IsEncoding ['?']
  | block : IsEncoding ['@', '?']
  | bareObject : IsEncoding ['@']
  | object {n : Str} (hn : '"' ∉ n) : IsEncoding ('@' :: '"' :: n ++ ['"'])
  | bitField {ds : Str} (hds : IsNumber ds) : IsEncoding ('b' :: ds)
  | pointer {w : Str} (h : IsEncoding w) : IsEncoding ('^' :: w)
  | array {ds w : Str} (hds : IsNumber ds) (h : IsEncoding w) :
      IsEncoding ('[' :: ds ++ w ++ [']'])
  | opaqueStruct {n : Str} (hn : ∀ c ∈ n, c ≠ '=' ∧ c ≠ '}') : IsEncoding ('{' :: n ++ ['}'])
  | aggregate {tag : Aggregate} {n : Str} {fs : List (Str × Str)}
      (hn : ∀ c ∈ n, c ≠ '=' ∧ c ≠ tag.closing) (hnames : ∀ f ∈ fs, IsNameText f.1)
      (hfs : ∀ f ∈ fs, IsEncoding f.2) (hapart : Apart fs) :
      IsEncoding (tag.opening :: n ++ '=' :: bodyText fs ++ [tag.closing])
  | qualified {q : Char} {w : Str} (hq : specifier q ≠ .unknown) (h : IsEncoding w) :
      IsEncoding (q :: w)

/-- The whole string is one encoding, with the digits of an offset behind it.  Digits behind a bit
field belong to its width. -/
def Whole (s : Str) : Prop :=
  ∃ w d, IsEncoding w ∧ (∀ c ∈ d, isDigit c = true) ∧ Juxtaposable w d ∧ s = w ++ d

/-- `process`, called at `it`, skips something. -/
inductive SkipsAt : Str → Prop
  | digit {it : Str} {c : Char} (hc : isDigit c = true) : SkipsAt (c :: it)
  | nothing {it : Str} (hc : codeAt it = []) : SkipsAt it
  | rejected {it rest : Str} {c : Char} (hc : codeAt it = c :: rest) (h : RejectedAt c rest) :
      SkipsAt it
  /-- The quote behind the name of a class is missing. -/
  | openName {it n : Str} (hc : codeAt it = '@' :: '"' :: n) (hn : '"' ∉ n) : SkipsAt it
  /-- The array has no element. -/
  | noElement {it rest : Str} (hc : codeAt it = '[' :: rest)
      (h : (readStrNumber rest).2.head? = some ']') : SkipsAt it
  /-- Its bracket does not come right behind its first element. -/
  | elements {it rest : Str} (hc : codeAt it = '[' :: rest)
      (h : (process (readStrNumber rest).2).2.head? ≠ some ']') : SkipsAt it
  | opaqueUnion {it rest : Str} (hc : codeAt it = '(' :: rest) (h : OpaqueName ')' rest) :
      SkipsAt it
  /-- The fields run to the end of the string. -/
  | openFields {it rest : Str} {tag : Aggregate} (hc : codeAt it = tag.opening :: rest)
      (ho : tag = .struct → ¬ OpaqueName '}' rest)
      (h : (Reader.repeatUntil (atDelim tag.closing) (processAttr process) (bodyAt rest)).2 = []) :
      SkipsAt it

/-- Decoding the string `s` skips something, somewhere before the digits of an offset at the end. -/
def Skips (s : Str) : Prop :=
  ∃ it, Reader.Visits List.isEmpty decodeStep s it ∧ (∃ c ∈ it, isDigit c = false) ∧
    ¬ Throughout (fun it => ¬ SkipsAt it) (processSpecifier it).2

variable {it rest w x : Str} {c d : Char}

/-! ### What can follow an encoding -/

/-- Only a bare object and a bit field at its end look at what follows an encoding. -/
lemma juxtaposable_letter (w rest : Str) (hc : c ≠ '@') (hd : isDigit c = false) :
    Juxtaposable (w ++ [c]) rest := by
  intro a ha b _
  obtain rfl : c = a := by simpa using ha
  simp [hc, hd]

lemma Juxtaposable.prepend (hw : w ≠ []) (h : Juxtaposable w rest) :
    Juxtaposable (x ++ w) rest := by
  intro a ha
  rw [List.getLast?_append_of_ne_nil _ hw] at ha
  exact h a ha

lemma Juxtaposable.of_append (h : Juxtaposable w (x ++ rest)) : Juxtaposable w x := by
  cases x with
  | nil => exact juxtaposable_nil w
  | cons b x => exact fun a ha b' hb' => h a ha b' (by simpa using hb')

/-! ### Where nothing is skipped -/

/-- A number is read digit by digit. -/
lemma exists_number (hnum : (readStrNumber it).1 ≠ []) : ∃ ds, IsNumber ds ∧
    it = ds ++ (readStrNumber it).2 ∧ ∀ c ∈ (readStrNumber it).2.head?, isDigit c = false := by
  have hsplit := List.takeWhile_append_dropWhile (p := isDigit) (l := it)
  refine ⟨it.takeWhile isDigit, ⟨?_, fun d hd => List.mem_takeWhile_imp hd⟩, ?_, ?_⟩
  · intro hnil
    refine hnum ?_
    cases it with
    | nil => rfl
    | cons c it =>
        have hc : isDigit c = false := by simpa [List.takeWhile_cons] using hnil
        simp [readStrNumber, readStrNumberFrom, hc]
  · rw [readStrNumber_snd]
    exact hsplit.symm
  · rw [readStrNumber_snd]
    have hhead := List.head?_dropWhile_not isDigit it
    intro c hc
    rw [Option.mem_def, skipDigits] at hc
    rw [hc] at hhead
    exact hhead

/-- The letters in front of the code of a type are qualifiers, unless there are digits. -/
lemma exists_qualifiers (h : ∀ c ∈ it.head?, isDigit c = false) :
    ∃ qs, it = qs ++ codeAt it ∧ ∀ q ∈ qs, specifier q ≠ .unknown := by
  have hskip : skipDigits it = it := by
    cases it with
    | nil => rfl
    | cons c it => simp [skipDigits, h c rfl]
  refine ⟨it.takeWhile fun c => specifier c ≠ .unknown, ?_, fun q hq => ?_⟩
  · rw [codeAt, hskip, processSpecifiers_eq, List.takeWhile_append_dropWhile]
  · simpa using List.mem_takeWhile_imp hq

lemma IsEncoding.ne_nil (h : IsEncoding w) : w ≠ [] := by
  cases h <;> simp

lemma IsEncoding.prepend (hq : ∀ q ∈ x, specifier q ≠ .unknown) (h : IsEncoding w) :
    IsEncoding (x ++ w) := by
  induction x with
  | nil => exact h
  | cons q x ih =>
      rw [List.forall_mem_cons] at hq
      exact .qualified hq.1 (ih hq.2)

lemma exists_skipChar (c : Char) (it : Str) :
    ∃ pre, it = pre ++ skipChar c it ∧ ∀ a ∈ pre, a = c := by
  cases it with
  | nil => exact ⟨[], rfl, List.forall_mem_nil _⟩
  | cons a it =>
      rw [skipChar]
      split
      · rename_i ha
        exact ⟨[a], rfl, by simpa using ha⟩
      · exact ⟨[], rfl, List.forall_mem_nil _⟩

/-- In front of the fields there is a name and `=`, or there are no fields. -/
lemma exists_name (hd : d ≠ '?') (ho : ¬ OpaqueName d it) : bodyAt it = [] ∨
    ∃ n, it = n ++ '=' :: bodyAt it ∧ ∀ c ∈ n, c ≠ '=' ∧ c ≠ d := by
  obtain ⟨pre, hpre, hmark⟩ := exists_skipChar '?' it
  have htake := (span_of_not_opaqueName ho).2
  have hsplit := List.takeWhile_append_dropWhile (p := (· != '=')) (l := skipChar '?' it)
  have hhead := List.head?_dropWhile_not (· != '=') (skipChar '?' it)
  rw [bodyAt]
  cases hbody : (skipChar '?' it).dropWhile (· != '=') with
  | nil => exact Or.inl rfl
  | cons e z =>
      rw [hbody] at hsplit hhead
      obtain rfl : e = '=' := by simpa using hhead
      refine Or.inr ⟨pre ++ (skipChar '?' it).takeWhile (· != '='), ?_, fun c hc => ?_⟩
      · rw [List.append_assoc, show skipChar '=' ('=' :: z) = z from rfl, hsplit]
        exact hpre
      · rcases List.mem_append.1 hc with hc | hc
        · rw [hmark c hc]
          exact ⟨by decide, hd.symm⟩
        · rw [← htake] at hc
          simpa using List.mem_takeWhile_imp hc

/-- A field begins with the text of its name. -/
lemma exists_nameText (h : (readOptName it).2 ≠ []) :
    ∃ n, it = n ++ (readOptName it).2 ∧ IsNameText n := by
  cases it with
  | nil => exact absurd rfl h
  | cons c it =>
      by_cases hc : c = '"'
      · subst hc
        by_cases hmem : '"' ∈ it
        · obtain ⟨n, it', rfl, hn⟩ := List.eq_append_cons_of_mem hmem
          have hread := readOptName_quoted hn it'
          rw [List.cons_append] at hread
          rw [hread]
          exact ⟨'"' :: n ++ ['"'], by simp, Or.inr ⟨n, hn, rfl⟩⟩
        · -- without a closing quote, the name takes all that is left
          refine absurd ?_ h
          have hdrop : it.dropWhile (· != '"') = [] :=
            List.dropWhile_eq_nil_iff.2 fun a ha => by simpa using ne_of_mem_of_not_mem ha hmem
          rw [readOptName, if_pos rfl, hdrop]
          rfl
      · rw [readOptName_of_ne hc]
        exact ⟨[], rfl, Or.inl rfl⟩

/-- The fields of a structure or union, each of which is a name and an encoding. -/
lemma exists_bodyText {stop : Str → Bool} {fs : List (Str × Part)} {it' : Str}
    (h : Repeats ReadsField it stop fs it')
    (hgood : ∀ it₁, Reader.Visits stop (processAttr process) it it₁ → ∃ n w,
      it₁ = n ++ (w ++ (processAttr process it₁).2) ∧ IsNameText n ∧ IsEncoding w ∧
        Juxtaposable w (processAttr process it₁).2) :
    ∃ gs, it = bodyText gs ++ it' ∧ (∀ g ∈ gs, IsNameText g.1) ∧ (∀ g ∈ gs, IsEncoding g.2) ∧
      Apart gs := by
  induction h with
  | done => exact ⟨[], rfl, List.forall_mem_nil _, List.forall_mem_nil _, trivial⟩
  | next hs h hrest ih =>
      obtain ⟨n, w, heq, hn, hw, hj⟩ := hgood _ (.here hs)
      rw [h.processAttr_snd] at heq hj
      obtain ⟨gs, rfl, hnames, hencodings, hapart⟩ :=
        ih fun it₁ hv => hgood it₁ (.next hs (h.processAttr_snd ▸ hv))
      refine ⟨(n, w) :: gs, ?_, List.forall_mem_cons.2 ⟨hn, hnames⟩,
        List.forall_mem_cons.2 ⟨hw, hencodings⟩, hj.of_append, hapart⟩
      rw [heq]
      simp [bodyText]

/-- In front of `rest` there is one encoding, which ends there. -/
def EncodingAt (it rest : Str) : Prop := ∃ w, it = w ++ rest ∧ IsEncoding w ∧ Juxtaposable w rest

/-- The type without parts that is read where nothing is skipped. -/
lemma LeafAt.encodingAt {t : Ty} {it' : Str} (h : LeafAt c it t it')
    (hname : c = '@' → ∀ n, it = '"' :: n → '"' ∈ n) : EncodingAt (c :: it) it' := by
  cases h with
  | primitive p =>
      exact ⟨[p.code], rfl, .primitive p, juxtaposable_letter [] _ (by cases p <;> decide)
        (by cases p <;> rfl)⟩
  | cls => exact ⟨['#'], rfl, .cls, juxtaposable_letter [] _ (by decide) rfl⟩
  | selector => exact ⟨[':'], rfl, .selector, juxtaposable_letter [] _ (by decide) rfl⟩
  | unknown => exact ⟨['?'], rfl, .unknown, juxtaposable_letter [] _ (by decide) rfl⟩
  | voidPointer =>
      exact ⟨['^', '?'], rfl, .pointer .unknown, juxtaposable_letter ['^'] _ (by decide) rfl⟩
  | block => exact ⟨['@', '?'], rfl, .block, juxtaposable_letter ['@'] _ (by decide) rfl⟩
  | bitField hnum =>
      obtain ⟨ds, hds, heq, hrest⟩ := exists_number hnum
      refine ⟨'b' :: ds, congrArg ('b' :: ·) heq, .bitField hds, ?_⟩
      intro a ha b hb
      rw [List.getLast?_cons_of_ne_nil hds.1] at ha
      have ha' := hds.2 a (List.mem_of_getLast? ha)
      refine ⟨fun hat => ?_, fun hab => absurd (hrest b hb) (by simp [hab.2])⟩
      rw [hat.1] at ha'
      exact absurd ha' (by decide)
  | object hq =>
      by_cases hquote : it.head? = some '"'
      · obtain ⟨it', rfl⟩ := List.head?_eq_some_iff.1 hquote
        obtain ⟨n, rest, rfl, hn⟩ := List.eq_append_cons_of_mem (hname rfl it' rfl)
        have hread := readOptName_quoted hn rest
        rw [List.cons_append] at hread
        rw [hread]
        exact ⟨'@' :: '"' :: n ++ ['"'], by simp, .object hn,
          juxtaposable_letter ('@' :: '"' :: n) rest (by decide) rfl⟩
      · have hread : readOptName it = ([], it) := by
          cases it with
          | nil => rfl
          | cons c it => exact readOptName_of_ne (by simpa using hquote) it
        rw [hread]
        refine ⟨['@'], rfl, .bareObject, fun a ha b hb => ⟨?_, ?_⟩⟩
        · rintro ⟨-, rfl | rfl⟩
          · exact hquote hb
          · exact hq hb
        · obtain rfl : '@' = a := by simpa using ha
          exact fun hdigit => absurd hdigit.1 (by decide)
  | opaqueStruct ho =>
      obtain ⟨pre, hpre, hmark⟩ := exists_skipChar '?' it
      obtain ⟨rest, hrest⟩ := List.head?_eq_some_iff.1 ho
      have hsplit := List.takeWhile_append_dropWhile (p := fun c => c != '=' && c != '}')
        (l := skipChar '?' it)
      rw [hrest] at hsplit ⊢
      refine ⟨'{' :: (pre ++ (skipChar '?' it).takeWhile fun c => c != '=' && c != '}') ++ ['}'],
        ?_, .opaqueStruct fun c hc => ?_, juxtaposable_letter _ _ (by decide) rfl⟩
      · simp only [List.cons_append, List.append_assoc, List.tail_cons, List.nil_append, hsplit]
        exact congrArg ('{' :: ·) hpre
      · rcases List.mem_append.1 hc with hc | hc
        · rw [hmark c hc]
          decide
        · simpa using List.mem_takeWhile_imp hc

/-- The array has one element, and its bracket comes right behind it. -/
lemma encodingAt_array {ps : List Part} {closed : Bool} {it' rest' : Str} (hself : ¬ SkipsAt it)
    (hcalled : ∀ {it₁}, Calls it it₁ → EncodingAt it₁ (process it₁).2)
    (hc : codeAt it = '[' :: rest) (hnum : (readStrNumber rest).1 ≠ [])
    (hloop : Repeats Reads (readStrNumber rest).2 (atDelim ']') ps it')
    (hend : Closes ']' closed it' rest') : EncodingAt ('[' :: rest) rest' := by
  obtain ⟨ds, hds, heq, -⟩ := exists_number hnum
  have hclose : (process (readStrNumber rest).2).2.head? = some ']' := by
    by_contra hclose
    exact hself (.elements hc hclose)
  have hfirst : Reader.Visits (atDelim ']') process (readStrNumber rest).2
      (readStrNumber rest).2 := by
    refine .here ?_
    cases hat : (readStrNumber rest).2 with
    | nil =>
        rw [hat, process_nil] at hclose
        exact absurd hclose (by simp)
    | cons c it =>
        refine beq_eq_false_iff_ne.2 ?_
        rintro rfl
        exact hself (.noElement hc (by rw [hat]; rfl))
  obtain ⟨w, helement, hw, -⟩ := hcalled (.array hc hnum hfirst)
  obtain ⟨q, -, hq⟩ := hloop.getLast?_of_visits (fun _ _ _ h => h.process_snd) hfirst
    (atDelim_of_head? hclose)
  rw [hq.process_snd] at hclose helement
  obtain ⟨rest', rfl⟩ := List.head?_eq_some_iff.1 hclose
  rw [hend.head?_eq.2, heq, helement]
  exact ⟨'[' :: ds ++ w ++ [']'], by simp, .array hds hw, juxtaposable_letter _ _ (by decide) rfl⟩

/-- The structure or union has a name and fields up to its bracket. -/
lemma encodingAt_aggregate {tag : Aggregate} {fs : List (Str × Part)} {closed : Bool}
    {it' rest' : Str} (h : Throughout (fun it => ¬ SkipsAt it) it)
    (hcalled : ∀ {it₁}, Calls it it₁ → EncodingAt it₁ (process it₁).2)
    (hc : codeAt it = tag.opening :: rest) (ho : tag = .struct → ¬ OpaqueName '}' rest)
    (hloop : Repeats ReadsField (bodyAt rest) (atDelim tag.closing) fs it')
    (hend : Closes tag.closing closed it' rest') : EncodingAt (tag.opening :: rest) rest' := by
  have hattr : ∀ it f it', ReadsField it f it' → (processAttr process it).2 = it' :=
    fun _ _ _ h => h.processAttr_snd
  have hend' : it' ≠ [] := by
    rintro rfl
    exact h.self (.openFields hc ho (hloop.repeatUntil_snd rfl processAttr_advances hattr))
  have hbody : bodyAt rest ≠ [] := by
    intro hnil
    refine hend' (List.suffix_nil.1 ?_)
    rw [← hnil]
    exact hloop.suffix (processAttr_forward process_forward) hattr
  have hname : ¬ OpaqueName tag.closing rest := by
    cases tag with
    | struct => exact ho rfl
    | union => exact fun hopaque => h.self (.opaqueUnion hc hopaque)
  obtain hnil | ⟨n, heq, hn⟩ := exists_name (by cases tag <;> decide) hname
  · exact absurd hnil hbody
  obtain ⟨gs, hgs, hnames, hencodings, hapart⟩ := exists_bodyText hloop fun it₁ hv => by
    have hcall := (calls_aggregate_iff _ hc).2 ⟨ho, it₁, hv, rfl⟩
    have hne : (readOptName it₁).2 ≠ [] := by
      intro hnil
      refine (h.of_calls hcall).self (.nothing ?_)
      rw [hnil]
      rfl
    obtain ⟨n, hn, hname⟩ := exists_nameText hne
    obtain ⟨w, hw, hencodings, hj⟩ := hcalled hcall
    exact ⟨n, w, hn.trans (congrArg (n ++ ·) hw), hname, hencodings, hj⟩
  cases hend with
  | toEnd => exact absurd rfl hend'
  | closed =>
      refine ⟨tag.opening :: n ++ '=' :: bodyText gs ++ [tag.closing], ?_,
        .aggregate hn hnames hencodings hapart, juxtaposable_letter _ _ ?_ ?_⟩
      · rw [heq, hgs]
        simp
      · cases tag <;> decide
      · cases tag <;> rfl

/-- **Where nothing is skipped, `process` reads an encoding.** -/
lemma encodingAt_process (h : Throughout (fun it => ¬ SkipsAt it) it) :
    EncodingAt it (process it).2 := by
  induction hn : it.length using Nat.strong_induction_on generalizing it with
  | _ n ih =>
      have hself := h.self
      have hcalled : ∀ {it'}, Calls it it' → EncodingAt it' (process it').2 :=
        fun hcall => ih _ (hn ▸ hcall.length_lt) (h.of_calls hcall) rfl
      have hdigit : ∀ c ∈ it.head?, isDigit c = false := by
        intro c hc
        by_contra hdigit
        obtain ⟨it', rfl⟩ := List.head?_eq_some_iff.1 hc
        exact hself (.digit (by simpa using hdigit))
      obtain ⟨qs, hqs, hq⟩ := exists_qualifiers hdigit
      suffices hcode : EncodingAt (codeAt it) (process it).2 by
        obtain ⟨w, heq, hw, hj⟩ := hcode
        refine ⟨qs ++ w, ?_, hw.prepend hq, hj.prepend hw.ne_nil⟩
        rw [List.append_assoc, ← heq]
        exact hqs
      obtain ⟨p, rest, hp⟩ := exists_reads it
      rw [hp.process_snd]
      cases hp with
      | nothing hc => exact absurd (.nothing hc) hself
      | rejected hc hr => exact absurd (.rejected hc hr) hself
      | leaf hc hl =>
          rw [hc]
          refine hl.encodingAt ?_
          rintro rfl n rfl
          by_contra hopen
          exact hself (.openName hc hopen)
      | pointer hc hv hp =>
          obtain ⟨w, heq, hw, hj⟩ := hcalled (.pointer hc hv)
          rw [hp.process_snd] at heq hj
          rw [hc]
          exact ⟨'^' :: w, congrArg ('^' :: ·) heq, .pointer hw, hj.prepend (x := ['^']) hw.ne_nil⟩
      | array hc hnum hloop hend =>
          rw [hc]
          exact encodingAt_array hself hcalled hc hnum hloop hend
      | aggregate hc ho hloop hend =>
          rw [hc]
          exact encodingAt_aggregate h hcalled hc ho hloop hend

/-! ### Where there is an encoding -/

/-- The letters that an encoding can start with. -/
lemma IsEncoding.exists_cons (h : IsEncoding w) :
    ∃ c w', w = c :: w' ∧ isDigit c = false ∧ c ∉ ['}', ')', ']', '"'] := by
  cases h with
  | primitive p => exact ⟨_, _, rfl, by cases p <;> rfl, by cases p <;> decide⟩
  | @aggregate tag => exact ⟨_, _, rfl, by cases tag <;> rfl, by cases tag <;> decide⟩
  | @qualified q w hq h =>
      refine ⟨_, _, rfl, isDigit_of_specifier hq, fun hmem => hq ?_⟩
      simp only [List.mem_cons, List.not_mem_nil, or_false] at hmem
      rcases hmem with rfl | rfl | rfl | rfl <;> rfl
  | _ => exact ⟨_, _, rfl, rfl, by decide⟩

lemma IsEncoding.isDigit_head (h : IsEncoding w) (rest : Str) :
    ∀ c ∈ (w ++ rest).head?, isDigit c = false := by
  obtain ⟨c, w', rfl, hc, -⟩ := h.exists_cons
  intro b hb
  obtain rfl : c = b := by simpa using hb
  exact hc

/-- A qualifier is passed over, unless digits come after it. -/
lemma codeAt_specifier {q : Char} (hq : specifier q ≠ .unknown)
    (hit : ∀ c ∈ it.head?, isDigit c = false) : codeAt (q :: it) = codeAt it := by
  have hskip : skipDigits it = it := by
    cases it with
    | nil => rfl
    | cons c it => simp [skipDigits, hit c rfl]
  rw [codeAt, codeAt, hskip]
  simp [skipDigits, isDigit_of_specifier hq, processSpecifiers, hq]

/-- What has to be looked at to see that nothing is skipped. -/
lemma not_skipsAt (hd : ∀ d ∈ it.head?, isDigit d = false) (hc : codeAt it = c :: rest)
    (hr : ¬ RejectedAt c rest) (hname : c = '@' → ∀ n, rest = '"' :: n → '"' ∈ n)
    (harray : c = '[' → (readStrNumber rest).2.head? ≠ some ']' ∧
      (process (readStrNumber rest).2).2.head? = some ']')
    (hunion : c = '(' → ¬ OpaqueName ')' rest)
    (hfields : ∀ tag : Aggregate, c = tag.opening → (tag = .struct → ¬ OpaqueName '}' rest) →
      (Reader.repeatUntil (atDelim tag.closing) (processAttr process) (bodyAt rest)).2 ≠ []) :
    ¬ SkipsAt it := by
  intro h
  cases h with
  | digit hdigit => exact absurd (hd _ rfl) (by simp [hdigit])
  | nothing hc' => exact absurd (hc.symm.trans hc') (List.cons_ne_nil _ _)
  | rejected hc' hr' =>
      obtain ⟨rfl, rfl⟩ := List.cons.inj (hc.symm.trans hc')
      exact hr hr'
  | openName hc' hn =>
      obtain ⟨rfl, rfl⟩ := List.cons.inj (hc.symm.trans hc')
      exact hn (hname rfl _ rfl)
  | noElement hc' h =>
      obtain ⟨rfl, rfl⟩ := List.cons.inj (hc.symm.trans hc')
      exact (harray rfl).1 h
  | elements hc' h =>
      obtain ⟨rfl, rfl⟩ := List.cons.inj (hc.symm.trans hc')
      exact h (harray rfl).2
  | opaqueUnion hc' h =>
      obtain ⟨rfl, rfl⟩ := List.cons.inj (hc.symm.trans hc')
      exact hunion rfl h
  | openFields hc' ho h =>
      obtain ⟨rfl, rfl⟩ := List.cons.inj (hc.symm.trans hc')
      exact hfields _ rfl ho h

lemma LeafAt.not_rejectedAt {t : Ty} {it' : Str} (h : LeafAt c it t it') : ¬ RejectedAt c it := by
  intro hr
  have hcode : processCode process c it = (t, it') := h.processCode_eq
  exact h.ne_null (congrArg Prod.fst (hcode.symm.trans hr.processCode_eq))

/-- A type without parts makes no calls, and there is nothing to skip in it. -/
lemma LeafAt.throughout {t : Ty} {it' : Str} (hd : ∀ d ∈ it.head?, isDigit d = false)
    (hc : codeAt it = c :: rest) (h : LeafAt c rest t it')
    (hname : c = '@' → ∀ n, rest = '"' :: n → '"' ∈ n) :
    Throughout (fun it => ¬ SkipsAt it) it := by
  refine .mk (not_skipsAt hd hc h.not_rejectedAt hname ?_ ?_ ?_) fun it'' hcall => ?_
  · rintro rfl
    rcases h.code_cases with hn | ⟨hn, -⟩ | ⟨hn, -⟩ <;> exact absurd hn (by decide)
  · rintro rfl
    rcases h.code_cases with hn | ⟨hn, -⟩ | ⟨hn, -⟩ <;> exact absurd hn (by decide)
  · rintro tag rfl ho
    rcases h.code_cases with hn | ⟨hn, -⟩ | ⟨hn, hopaque⟩
    · cases tag <;> exact absurd hn (by decide)
    · cases tag <;> exact absurd hn (by decide)
    · cases tag with
      | struct => exact absurd hopaque (ho rfl)
      | union => exact absurd hn (by decide)
  · obtain ⟨c', hmem, rest', hc', -⟩ := hcall.exists_code
    obtain ⟨rfl, rfl⟩ := List.cons.inj (hc.symm.trans hc')
    rcases h.code_cases with hn | ⟨rfl, hq⟩ | ⟨rfl, hopaque⟩
    · exact absurd hmem hn
    · exact absurd hq ((calls_pointer_iff hc).1 hcall).1
    · exact absurd hopaque (((calls_aggregate_iff .struct hc).1 hcall).1 rfl)

lemma readOptName_nameText {n : Str} (hn : IsNameText n) (hw : IsEncoding w) (rest : Str) :
    (readOptName (n ++ (w ++ rest))).2 = w ++ rest := by
  obtain rfl | ⟨m, hm, rfl⟩ := hn
  · obtain ⟨c, w', rfl, -, hc⟩ := hw.exists_cons
    rw [List.nil_append, List.cons_append, readOptName_of_ne (by rintro rfl; simp at hc)]
  · have hread := readOptName_quoted hm (w ++ rest)
    rw [show '"' :: m ++ ['"'] ++ (w ++ rest) = '"' :: m ++ '"' :: (w ++ rest) by simp, hread]

/-- The string `w`, in front of anything that can follow it, is read as one type, and nothing is
skipped in it. -/
def ReadWhole (w : Str) : Prop :=
  ∀ rest, Juxtaposable w rest → ∃ p, Reads (w ++ rest) p rest ∧ p.isType = true ∧
    Throughout (fun it => ¬ SkipsAt it) (w ++ rest)

/-- The loop on the fields of a structure or union reads fields that can be read. -/
lemma reads_bodyText {fs : List (Str × Str)} (hd : d = '}' ∨ d = ')')
    (hnames : ∀ f ∈ fs, IsNameText f.1) (hfs : ∀ f ∈ fs, IsEncoding f.2)
    (hread : ∀ f ∈ fs, ReadWhole f.2) (hapart : Apart fs) (rest : Str) :
    ∃ ps, Repeats ReadsField (bodyText fs ++ d :: rest) (atDelim d) ps (d :: rest) ∧
      ∀ it₁, Reader.Visits (atDelim d) (processAttr process) (bodyText fs ++ d :: rest) it₁ →
        Throughout (fun it => ¬ SkipsAt it) (readOptName it₁).2 := by
  induction fs with
  | nil =>
      have hstop : atDelim d (d :: rest) = true := by simp [atDelim]
      refine ⟨[], .done hstop, fun it₁ hv => ?_⟩
      cases hv with
      | here hs | next hs => exact absurd (hs.symm.trans hstop) (by simp)
  | cons f fs ih =>
      rw [List.forall_mem_cons] at hnames hfs hread
      obtain ⟨ps, hloop, hvisits⟩ := ih hnames.2 hfs.2 hread.2 hapart.2
      have hj : Juxtaposable f.2 (bodyText fs ++ d :: rest) := hapart.1.append
        (juxtaposable_delim _ _ (by rcases hd with rfl | rfl <;> rfl)
          (by rcases hd with rfl | rfl <;> decide) (by rcases hd with rfl | rfl <;> decide))
      obtain ⟨p, hp, -, hthrough⟩ := hread.1 _ hj
      have htext : bodyText (f :: fs) ++ d :: rest =
          f.1 ++ (f.2 ++ (bodyText fs ++ d :: rest)) := by
        simp [bodyText]
      have hname := readOptName_nameText hnames.1 hfs.1 (bodyText fs ++ d :: rest)
      have hstop : atDelim d (f.1 ++ (f.2 ++ (bodyText fs ++ d :: rest))) = false := by
        obtain hnil | ⟨m, -, hquote⟩ := hnames.1
        · obtain ⟨c, w', hw, -, hc⟩ := hfs.1.exists_cons
          rw [hnil, hw]
          refine beq_eq_false_iff_ne.2 ?_
          rintro rfl
          rcases hd with rfl | rfl <;> exact absurd (by decide) hc
        · rw [hquote]
          refine beq_eq_false_iff_ne.2 ?_
          rcases hd with rfl | rfl <;> decide
      rw [htext]
      have hfield : ReadsField (f.1 ++ (f.2 ++ (bodyText fs ++ d :: rest)))
          ((readOptName (f.1 ++ (f.2 ++ (bodyText fs ++ d :: rest)))).1, p)
          (bodyText fs ++ d :: rest) := .mk (by rw [hname]; exact hp)
      refine ⟨_, .next hstop hfield hloop, fun it₁ hv => ?_⟩
      cases hv with
      | here =>
          rw [hname]
          exact hthrough
      | next _ hv =>
          rw [hfield.processAttr_snd] at hv
          exact hvisits it₁ hv

/-- A type without parts is read by its letter. -/
lemma LeafAt.readWhole {it : Str} (hcode : ∀ rest, codeAt (c :: it ++ rest) = c :: it ++ rest)
    (hd : isDigit c = false) (hname : c = '@' → ∀ n rest, it ++ rest = '"' :: n →
      Juxtaposable (c :: it) rest → '"' ∈ n)
    (h : ∀ rest, Juxtaposable (c :: it) rest → ∃ t, LeafAt c (it ++ rest) t rest) :
    ReadWhole (c :: it) := by
  intro rest hj
  obtain ⟨t, hl⟩ := h rest hj
  refine ⟨.leaf t, .leaf (hcode rest) hl, rfl, hl.throughout (fun b hb => ?_) (hcode rest)
    fun hc n heq => hname hc n rest heq hj⟩
  obtain rfl : c = b := by simpa using hb
  exact hd

/-- Past an optional question mark there is the rest of the name. -/
lemma skipChar_append {n : Str} (hd : d ≠ '?') (rest : Str) :
    ∃ n', skipChar '?' (n ++ d :: rest) = n' ++ d :: rest ∧ ∀ c ∈ n', c ∈ n := by
  cases n with
  | nil => exact ⟨[], if_neg hd, List.forall_mem_nil _⟩
  | cons a n =>
      rw [List.cons_append, skipChar]
      split
      · exact ⟨n, rfl, fun c hc => List.mem_cons_of_mem a hc⟩
      · exact ⟨a :: n, rfl, fun c hc => hc⟩

lemma IsEncoding.eq_unknown (h : IsEncoding w) (hw : w.head? = some '?') : w = ['?'] := by
  cases h with
  | unknown => rfl
  | primitive p => cases p <;> exact absurd hw (by decide)
  | @aggregate tag => cases tag <;> exact absurd hw (by simp [Aggregate.opening])
  | @qualified q w hq h =>
      obtain rfl : q = '?' := by simpa using hw
      exact absurd rfl hq
  | _ => exact absurd hw (by simp)

/-- What is left when `process` looks at the code decides what is read, and what is skipped. -/
lemma Reads.congr {it' : Str} {p : Part} (hcode : codeAt it = codeAt it') (h : Reads it p rest) :
    Reads it' p rest := by
  cases h with
  | nothing hc => exact .nothing (hcode ▸ hc)
  | rejected hc hr => exact .rejected (hcode ▸ hc) hr
  | leaf hc hl => exact .leaf (hcode ▸ hc) hl
  | pointer hc hv h => exact .pointer (hcode ▸ hc) hv h
  | array hc hnum h hend => exact .array (hcode ▸ hc) hnum h hend
  | aggregate hc ho h hend => exact .aggregate (hcode ▸ hc) ho h hend

lemma SkipsAt.congr {it' : Str} (hcode : codeAt it = codeAt it')
    (hd : ∀ d ∈ it.head?, isDigit d = false) (h : SkipsAt it) : SkipsAt it' := by
  cases h with
  | digit hdigit => exact absurd (hd _ rfl) (by simp [hdigit])
  | nothing hc => exact .nothing (hcode ▸ hc)
  | rejected hc hr => exact .rejected (hcode ▸ hc) hr
  | openName hc hn => exact .openName (hcode ▸ hc) hn
  | noElement hc h => exact .noElement (hcode ▸ hc) h
  | elements hc h => exact .elements (hcode ▸ hc) h
  | opaqueUnion hc h => exact .opaqueUnion (hcode ▸ hc) h
  | openFields hc ho h => exact .openFields (hcode ▸ hc) ho h

lemma Throughout.congr {it' : Str} (hcode : codeAt it = codeAt it')
    (hd : ∀ d ∈ it.head?, isDigit d = false) (h : Throughout (fun it => ¬ SkipsAt it) it') :
    Throughout (fun it => ¬ SkipsAt it) it :=
  .mk (fun hskip => h.self (hskip.congr hcode hd)) fun _ hcall => h.of_calls (hcall.congr hcode)

/-! ### The rules -/

lemma readWhole_primitive (p : Primitive) : ReadWhole [p.code] := by
  refine LeafAt.readWhole (fun rest => ?_) (by cases p <;> rfl) ?_
    fun rest _ => ⟨_, .primitive p rest⟩
  · cases p <;> rfl
  · intro hc
    cases p <;> exact absurd hc (by decide)

/-- The name of an object is not taken from what follows. -/
lemma readWhole_bareObject : ReadWhole ['@'] := by
  refine LeafAt.readWhole (fun _ => rfl) rfl (fun _ n rest heq hj => ?_) fun rest hj => ?_
  · rw [List.nil_append] at heq
    exact absurd ⟨rfl, Or.inl rfl⟩ (hj '@' rfl '"' (by rw [heq]; rfl)).1
  · have hnext := hj '@' rfl
    have hread : readOptName rest = ([], rest) := by
      cases rest with
      | nil => rfl
      | cons b rest =>
          refine readOptName_of_ne ?_ rest
          rintro rfl
          exact (hnext _ rfl).1 ⟨rfl, Or.inl rfl⟩
    have hl : LeafAt '@' rest (.object (readOptName rest).1) (readOptName rest).2 :=
      .object fun hq => (hnext _ hq).1 ⟨rfl, Or.inr rfl⟩
    rw [hread] at hl
    exact ⟨_, hl⟩

lemma readWhole_object {n : Str} (hn : '"' ∉ n) : ReadWhole ('@' :: '"' :: n ++ ['"']) := by
  refine LeafAt.readWhole (fun _ => rfl) rfl (fun _ m rest heq _ => ?_) fun rest _ => ?_
  · rw [← (List.cons.inj heq).2]
    simp
  · have hread := readOptName_quoted hn rest
    have hl : LeafAt '@' ('"' :: n ++ '"' :: rest) _ _ := .object (by simp)
    rw [hread] at hl
    exact ⟨_, by simpa using hl⟩

/-- Digits that follow a bit field would belong to its width. -/
lemma readWhole_bitField {ds : Str} (hds : IsNumber ds) : ReadWhole ('b' :: ds) := by
  refine LeafAt.readWhole (fun _ => rfl) rfl (fun hc => absurd hc (by decide)) fun rest hj => ?_
  have hrest : ∀ c ∈ rest.head?, isDigit c = false := by
    intro b hb
    have hlast : ('b' :: ds).getLast? = some (ds.getLast hds.1) := by
      rw [List.getLast?_cons_of_ne_nil hds.1, List.getLast?_eq_some_getLast hds.1]
    by_contra hdigit
    exact (hj _ hlast b hb).2 ⟨hds.2 _ (List.getLast_mem hds.1), by simpa using hdigit⟩
  obtain ⟨n, hn, hread, -⟩ := readStrNumber_append hds rest hrest
  have hl : LeafAt 'b' (ds ++ rest) _ _ := .bitField (by rw [hread]; exact hn)
  rw [hread] at hl
  exact ⟨_, hl⟩

lemma readWhole_opaqueStruct {n : Str} (hn : ∀ c ∈ n, c ≠ '=' ∧ c ≠ '}') :
    ReadWhole ('{' :: n ++ ['}']) := by
  refine LeafAt.readWhole (fun _ => rfl) rfl (fun hc => absurd hc (by decide)) fun rest _ => ?_
  obtain ⟨n', hname, hmem⟩ := skipChar_append (n := n) (d := '}') (by decide) rest
  have hdrop : ((skipChar '?' (n ++ '}' :: rest)).dropWhile fun c => c != '=' && c != '}') =
      '}' :: rest := by
    rw [hname]
    exact dropWhile_append_cons (fun a ha => by simpa using hn a (hmem a ha)) (by decide)
  have hl : LeafAt '{' (n ++ '}' :: rest) _ _ := .opaqueStruct (by rw [OpaqueName, hdrop]; rfl)
  rw [hdrop] at hl
  exact ⟨_, by simpa using hl⟩

lemma readWhole_pointer (hw : IsEncoding w) (ih : ReadWhole w) : ReadWhole ('^' :: w) := by
  intro rest hj
  obtain ⟨p, hp, htype, hthrough⟩ := ih rest (hj.tail hw.ne_nil)
  have hc : codeAt ('^' :: w ++ rest) = '^' :: (w ++ rest) := rfl
  have hd : ∀ d ∈ ('^' :: w ++ rest).head?, isDigit d = false := by
    intro d hd
    obtain rfl : '^' = d := by simpa using hd
    rfl
  by_cases hv : (w ++ rest).head? = some '?'
  · -- the encoding is the question mark alone
    obtain rfl := hw.eq_unknown (by
      obtain ⟨c, w', rfl, -⟩ := hw.exists_cons
      exact hv)
    have hl := LeafAt.voidPointer rest
    exact ⟨_, .leaf hc hl, rfl, hl.throughout hd hc fun hc => absurd hc (by decide)⟩
  · refine ⟨.pointer p, .pointer hc hv hp, htype, .mk ?_ fun it' hcall => ?_⟩
    · refine not_skipsAt hd hc ?_ ?_ ?_ ?_ ?_
      · intro hr
        rcases hr.code_cases with hn | ⟨-, hn⟩ <;> exact absurd hn (by decide)
      all_goals first
        | exact fun hc => absurd hc (by decide)
        | exact fun tag hc => absurd hc (by cases tag <;> decide)
    · obtain ⟨-, rfl⟩ := (calls_pointer_iff hc).1 hcall
      exact hthrough

lemma readWhole_array {ds : Str} (hds : IsNumber ds) (hw : IsEncoding w) (ih : ReadWhole w) :
    ReadWhole ('[' :: ds ++ w ++ [']']) := by
  intro rest hj
  have htext : '[' :: ds ++ w ++ [']'] ++ rest = '[' :: (ds ++ (w ++ ']' :: rest)) := by simp
  rw [htext]
  have hc : codeAt ('[' :: (ds ++ (w ++ ']' :: rest))) =
      '[' :: (ds ++ (w ++ ']' :: rest)) := rfl
  obtain ⟨p, hp, htype, hthrough⟩ := ih (']' :: rest)
    (juxtaposable_delim _ _ rfl (by decide) (by decide))
  obtain ⟨n, hn, hread, -⟩ := readStrNumber_append hds (w ++ ']' :: rest) (hw.isDigit_head _)
  have hnum : (readStrNumber (ds ++ (w ++ ']' :: rest))).1 ≠ [] := by
    rw [hread]
    exact hn
  obtain ⟨c, w', hcons, -, hnot⟩ := hw.exists_cons
  have hstop : atDelim ']' (w ++ ']' :: rest) = false := by
    rw [hcons]
    refine beq_eq_false_iff_ne.2 ?_
    rintro rfl
    exact absurd (by decide) hnot
  have hloop : Repeats Reads (readStrNumber (ds ++ (w ++ ']' :: rest))).2 (atDelim ']') [p]
      (']' :: rest) := by
    rw [hread]
    exact .next hstop hp (.done rfl)
  refine ⟨_, .array hc hnum hloop (.closed rest), rfl, .mk ?_ fun it' hcall => ?_⟩
  · refine not_skipsAt (fun d hd => ?_) hc ?_ ?_ ?_ ?_ ?_
    · obtain rfl : '[' = d := by simpa using hd
      rfl
    · intro hr
      rcases hr.code_cases with hn | ⟨hn, -⟩
      · exact absurd (by decide) hn
      · exact absurd hn hnum
    · exact fun hc => absurd hc (by decide)
    · intro _
      rw [hread]
      refine ⟨fun hhead => ?_, by rw [hp.process_snd]; rfl⟩
      rw [atDelim_of_head? hhead] at hstop
      exact absurd hstop (by simp)
    · exact fun hc => absurd hc (by decide)
    · exact fun tag hc => absurd hc (by cases tag <;> decide)
  · -- the only call is made for the element
    obtain ⟨-, hv⟩ := (calls_array_iff hc).1 hcall
    rw [hread] at hv
    cases hv with
    | here => exact hthrough
    | next _ hv =>
        rw [hp.process_snd] at hv
        cases hv with
        | here hs | next hs => exact absurd hs (by simp [atDelim])

lemma readWhole_aggregate {tag : Aggregate} {n : Str} {fs : List (Str × Str)}
    (hn : ∀ c ∈ n, c ≠ '=' ∧ c ≠ tag.closing) (hnames : ∀ f ∈ fs, IsNameText f.1)
    (hfs : ∀ f ∈ fs, IsEncoding f.2) (hapart : Apart fs) (ih : ∀ f ∈ fs, ReadWhole f.2) :
    ReadWhole (tag.opening :: n ++ '=' :: bodyText fs ++ [tag.closing]) := by
  intro rest _
  have htext : tag.opening :: n ++ '=' :: bodyText fs ++ [tag.closing] ++ rest =
      tag.opening :: (n ++ '=' :: (bodyText fs ++ tag.closing :: rest)) := by simp
  rw [htext]
  have hc : codeAt (tag.opening :: (n ++ '=' :: (bodyText fs ++ tag.closing :: rest))) =
      tag.opening :: (n ++ '=' :: (bodyText fs ++ tag.closing :: rest)) := by cases tag <;> rfl
  obtain ⟨n', hname, hmem⟩ := skipChar_append (n := n) (d := '=') (by decide)
    (bodyText fs ++ tag.closing :: rest)
  have hbody : bodyAt (n ++ '=' :: (bodyText fs ++ tag.closing :: rest)) =
      bodyText fs ++ tag.closing :: rest := by
    rw [bodyAt, hname, dropWhile_append_cons (fun a ha => by simpa using (hn a (hmem a ha)).1)
      (by decide)]
    rfl
  have ho : ¬ OpaqueName tag.closing (n ++ '=' :: (bodyText fs ++ tag.closing :: rest)) := by
    rw [OpaqueName, hname, dropWhile_append_cons (fun a ha => by simpa using hn a (hmem a ha))
      (by simp)]
    cases tag <;> simp [Aggregate.closing]
  have ho' : tag = .struct →
      ¬ OpaqueName '}' (n ++ '=' :: (bodyText fs ++ tag.closing :: rest)) := by
    rintro rfl
    exact ho
  obtain ⟨ps, hloop, hvisits⟩ := reads_bodyText (d := tag.closing)
    (by cases tag <;> decide) hnames hfs ih hapart rest
  rw [← hbody] at hloop hvisits
  refine ⟨_, .aggregate hc ho' hloop (.closed rest), rfl, .mk ?_ fun it' hcall => ?_⟩
  · refine not_skipsAt (fun d hd => ?_) hc ?_ ?_ ?_ ?_ ?_
    · obtain rfl : tag.opening = d := by simpa using hd
      cases tag <;> rfl
    · intro hr
      rcases hr.code_cases with hn | ⟨-, hn⟩ <;> cases tag <;> exact absurd hn (by decide)
    · exact fun hc => absurd hc (by cases tag <;> decide)
    · exact fun hc => absurd hc (by cases tag <;> decide)
    · intro hunion
      cases tag with
      | struct => exact absurd hunion (by decide)
      | union => exact ho
    · intro tag' htag _
      obtain rfl : tag = tag' := by
        cases tag <;> cases tag' <;> first | rfl | exact absurd htag (by decide)
      rw [hloop.repeatUntil_snd rfl processAttr_advances fun _ _ _ h => h.processAttr_snd]
      exact List.cons_ne_nil _ _
  · obtain ⟨-, it₁, hv, rfl⟩ := (calls_aggregate_iff _ hc).1 hcall
    exact hvisits it₁ hv

lemma readWhole_qualified {q : Char} (hq : specifier q ≠ .unknown) (hw : IsEncoding w)
    (ih : ReadWhole w) : ReadWhole (q :: w) := by
  intro rest hj
  obtain ⟨p, hp, htype, hthrough⟩ := ih rest (hj.tail hw.ne_nil)
  have hcode : codeAt (q :: w ++ rest) = codeAt (w ++ rest) :=
    codeAt_specifier hq (hw.isDigit_head rest)
  refine ⟨p, hp.congr hcode.symm, htype, hthrough.congr hcode fun d hd => ?_⟩
  obtain rfl : q = d := by simpa using hd
  exact isDigit_of_specifier hq

/-- **In an encoding nothing is skipped.** -/
lemma IsEncoding.read (h : IsEncoding w) : ReadWhole w := by
  induction h with
  | primitive p => exact readWhole_primitive p
  | cls =>
      exact LeafAt.readWhole (fun _ => rfl) rfl (fun hc => absurd hc (by decide))
        fun rest _ => ⟨_, .cls rest⟩
  | selector =>
      exact LeafAt.readWhole (fun _ => rfl) rfl (fun hc => absurd hc (by decide))
        fun rest _ => ⟨_, .selector rest⟩
  | unknown =>
      exact LeafAt.readWhole (fun _ => rfl) rfl (fun hc => absurd hc (by decide))
        fun rest _ => ⟨_, .unknown rest⟩
  | block =>
      exact LeafAt.readWhole (fun _ => rfl) rfl (fun _ n rest heq => absurd heq (by simp))
        fun rest _ => ⟨_, .block rest⟩
  | bareObject => exact readWhole_bareObject
  | object hn => exact readWhole_object hn
  | bitField hds => exact readWhole_bitField hds
  | pointer hw ih => exact readWhole_pointer hw ih
  | array hds hw ih => exact readWhole_array hds hw ih
  | opaqueStruct hn => exact readWhole_opaqueStruct hn
  | aggregate hn hnames hfs hapart ih => exact readWhole_aggregate hn hnames hfs hapart ih
  | qualified hq hw ih => exact readWhole_qualified hq hw ih

/-! ### Whole strings -/

/-- Behind a qualifier at its beginning, the encoding goes on. -/
lemma IsEncoding.of_specifier {q : Char} (hq : specifier q ≠ .unknown) (h : IsEncoding (q :: w)) :
    IsEncoding w := by
  generalize hx : q :: w = x at h
  cases h with
  | qualified _ h =>
      obtain ⟨-, rfl⟩ := List.cons.inj hx
      exact h
  | primitive p =>
      obtain ⟨rfl, -⟩ := List.cons.inj hx
      cases p <;> exact absurd rfl hq
  | @aggregate tag =>
      obtain ⟨rfl, -⟩ := List.cons.inj hx
      cases tag <;> exact absurd rfl hq
  | _ =>
      obtain ⟨rfl, -⟩ := List.cons.inj hx
      exact absurd rfl hq

lemma Whole.not_skips {s : Str} (h : Whole s) : ¬ Skips s := by
  obtain ⟨w, d, hw, hd, hj, rfl⟩ := h
  rintro ⟨it, hv, ⟨c, hc, hletter⟩, hskip⟩
  obtain ⟨p, hp, htype, hthrough⟩ := hw.read d hj
  cases hv with
  | here =>
      -- the loop skips a qualifier itself
      refine hskip ?_
      cases w with
      | nil => exact absurd rfl hw.ne_nil
      | cons q w =>
          rw [List.cons_append, processSpecifier]
          split
          · exact hthrough
          · rename_i hq
            have hw' := hw.of_specifier hq
            obtain ⟨-, -, -, hthrough⟩ := hw'.read d (hj.tail hw'.ne_nil)
            exact hthrough
  | next _ hv =>
      -- nothing but the digits is left
      have hne : (process (w ++ d)).1 ≠ .null := by
        rw [hp.process_eq]
        exact hp.ne_null htype
      rw [decodeStep_eq hne, hp.process_snd] at hv
      have hmem := (hv.suffix decodeStep_forward).subset hc
      rw [hd c hmem] at hletter
      exact absurd hletter (by simp)

/-- Where nothing is skipped, the loop of `decode_type` reads an encoding. -/
lemma encodingAt_decodeStep (h : Throughout (fun it => ¬ SkipsAt it) (processSpecifier it).2) :
    EncodingAt it (decodeStep it).2 ∧ (decodeStep it).1 ≠ .null := by
  obtain ⟨w, heq, hw, hj⟩ := encodingAt_process h
  obtain ⟨p, hp, htype, -⟩ := hw.read _ hj
  rw [← heq] at hp
  have hne : (decodeStep it).1 ≠ .null := by
    rw [decodeStep, hp.process_eq]
    exact hp.ne_null htype
  have hrest : (process (processSpecifier it).2).2 = (decodeStep it).2 := rfl
  rw [hrest] at heq hj
  cases it with
  | nil => exact ⟨⟨w, heq, hw, hj⟩, hne⟩
  | cons q it =>
      by_cases hq : specifier q = .unknown
      · rw [processSpecifier, if_pos hq] at heq
        exact ⟨⟨w, heq, hw, hj⟩, hne⟩
      · rw [processSpecifier, if_neg hq] at heq
        exact ⟨⟨q :: w, congrArg (q :: ·) heq, .qualified hq hw,
          hj.prepend (x := [q]) hw.ne_nil⟩, hne⟩

lemma decodeType_cons (hne : (decodeStep it).1 ≠ .null) :
    decodeType it = (decodeStep it).1 :: decodeType (decodeStep it).2 :=
  decodeType_of_ne_null rfl hne

/-- **A string with one type in it is one encoding** exactly when nothing is skipped in it. -/
theorem whole_iff {s : Str} (hone : (decodeType s).length = 1) : Whole s ↔ ¬ Skips s := by
  refine ⟨Whole.not_skips, fun h => ?_⟩
  have hgood : ∀ it, Reader.Visits List.isEmpty decodeStep s it → (∃ c ∈ it, isDigit c = false) →
      Throughout (fun it => ¬ SkipsAt it) (processSpecifier it).2 := by
    intro it hv hletter
    by_contra hskip
    exact h ⟨it, hv, hletter, hskip⟩
  -- strings of digits have no type
  have hletter : ∀ it, decodeType it ≠ [] → ∃ c ∈ it, isDigit c = false := by
    intro it hne
    by_contra hall
    refine hne (decodeType_digits fun c hc => ?_)
    by_contra hdigit
    exact hall ⟨c, hc, by simpa using hdigit⟩
  have hs : s.isEmpty = false := by
    cases s with
    | nil => exact absurd hone (by simp [decodeType_nil])
    | cons c s => rfl
  obtain ⟨⟨w, heq, hw, hj⟩, hne⟩ := encodingAt_decodeStep
    (hgood s (.here hs) (hletter s (List.ne_nil_of_length_pos (by omega))))
  rw [decodeType_cons hne, List.length_cons] at hone
  refine ⟨w, (decodeStep s).2, hw, fun c hc => ?_, hj, heq⟩
  -- there is no second type
  by_contra hdigit
  have hv : Reader.Visits List.isEmpty decodeStep s (decodeStep s).2 := by
    refine .next hs (.here ?_)
    cases hrest : (decodeStep s).2 with
    | nil => exact absurd hc (by simp [hrest])
    | cons => rfl
  obtain ⟨-, hne'⟩ := encodingAt_decodeStep (hgood _ hv ⟨c, hc, by simpa using hdigit⟩)
  rw [decodeType_cons hne', List.length_cons] at hone
  omega

end ICDump
