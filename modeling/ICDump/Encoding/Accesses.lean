/-
What the decoder does to the string.

The programs of `Iterator.lean` run as the functions of `Decode.lean` say.  The judgement
`Yields encoded m it a it' safe` compares the two: started where `it` is left of the string, the
program `m` makes `a` and ends where `it'` is left, and all that it does to the string is allowed
exactly when `safe` holds.  There is one rule for each statement, and one for loops, which asks
that the bound be larger than what is left.

By these rules the decoder comes to an end on every string, and it looks at the end of the string
in one place only: where a structure with fields is not closed, the argument of the error message
is the character at the cursor.
-/
import ICDump.Encoding.Calls
import ICDump.Encoding.Iterator

namespace ICDump

/-- The iterator when `it` is left of the string. -/
def cursorAt (encoded it : Str) (log : List Access) : Iter :=
  ⟨encoded.length - it.length, log⟩

/-- Started where `it` is left of the string, `m` makes `a` and ends where `it'` is left.  What it
does to the string is allowed when `safe` holds, and only then. -/
def Yields {α : Type} (encoded : Str) (m : IterM α) (it : Str) (a : α) (it' : Str) (safe : Prop) :
    Prop :=
  it <:+ encoded → it' <:+ encoded ∧ ∀ log, ∃ l,
    m (cursorAt encoded it log) = (some a, cursorAt encoded it' (log ++ l)) ∧
      ((∀ x ∈ l, x.InBounds encoded.length) ↔ safe)

namespace Yields

variable {encoded it it' it'' : Str} {α β : Type} {m : IterM α} {f : α → IterM β} {a : α} {b : β}
  {c : Char} {safe safe' : Prop} {n k : ℕ}

/-! ### Statements -/

/-- A statement that does nothing to the string. -/
lemma of_eq (hit : it' <:+ it) (h : it <:+ encoded → ∀ log, m (cursorAt encoded it log) =
    (some a, cursorAt encoded it' log)) : Yields encoded m it a it' True := by
  intro henc
  refine ⟨hit.trans henc, fun log => ⟨[], ?_, by simp⟩⟩
  rw [h henc, List.append_nil]

lemma pure (a : α) : Yields encoded (Pure.pure a) it a it True :=
  of_eq List.suffix_rfl fun _ _ => rfl

lemma bind_and (h : Yields encoded m it a it' safe) (hf : Yields encoded (f a) it' b it'' safe') :
    Yields encoded (m >>= f) it b it'' (safe ∧ safe') := by
  intro henc
  obtain ⟨henc', hm⟩ := h henc
  obtain ⟨henc'', hf⟩ := hf henc'
  refine ⟨henc'', fun log => ?_⟩
  obtain ⟨l, hl, hsafe⟩ := hm log
  obtain ⟨l', hl', hsafe'⟩ := hf (log ++ l)
  refine ⟨l ++ l', ?_, ?_⟩
  · rw [Attempt.bind_of_some hl, hl', List.append_assoc]
  · rw [List.forall_mem_append, hsafe, hsafe']

lemma congr (h : Yields encoded m it a it' safe) (hsafe : safe ↔ safe') :
    Yields encoded m it a it' safe' := by
  rwa [propext hsafe] at h

/-- A statement that is safe on its own, and what comes after it. -/
lemma bind (h : Yields encoded m it a it' True) (hf : Yields encoded (f a) it' b it'' safe) :
    Yields encoded (m >>= f) it b it'' safe :=
  (h.bind_and hf).congr (by rw [true_and])

/-- The result is all that is needed of a statement at the end. -/
lemma map (h : Yields encoded m it a it' safe) (g : α → β) :
    Yields encoded (m >>= fun a => Pure.pure (g a)) it (g a) it' safe :=
  (h.bind_and (pure (g a))).congr (by rw [and_true])

lemma atEnd : Yields encoded (IterM.atEnd encoded) it it.isEmpty it True := by
  refine of_eq List.suffix_rfl fun henc log => ?_
  have hle := henc.length_le
  have hiff : (encoded.length - it.length == encoded.length) = it.isEmpty := by
    cases it with
    | nil => simp
    | cons c it =>
        rw [List.length_cons] at hle ⊢
        simp only [List.isEmpty_cons, beq_eq_false_iff_ne]
        omega
  simp only [IterM.atEnd, cursorAt, hiff]

/-- Before the end, the cursor may be dereferenced. -/
lemma deref : Yields encoded (IterM.deref encoded) (c :: it) c (c :: it) True := by
  intro henc
  refine ⟨henc, fun log => ⟨[.deref (encoded.length - (c :: it).length)], ?_, ?_⟩⟩
  · obtain ⟨w, rfl⟩ := henc
    simp [IterM.deref, cursorAt, List.getD_eq_getElem?_getD]
  · have hle := henc.length_le
    rw [List.length_cons] at hle ⊢
    simp only [List.forall_mem_singleton, Access.InBounds, iff_true]
    omega

/-- At the end, it may not. -/
lemma deref_nil : ∃ c, Yields encoded (IterM.deref encoded) [] c [] False := by
  refine ⟨encoded.getD encoded.length (Char.ofNat 0), fun henc =>
    ⟨henc, fun log => ⟨[.deref encoded.length], rfl, ?_⟩⟩⟩
  simp [Access.InBounds]

lemma next : Yields encoded IterM.next (c :: it) () it True := by
  refine of_eq (List.suffix_cons c it) fun henc log => ?_
  have hle := henc.length_le
  rw [List.length_cons] at hle
  simp only [IterM.next, cursorAt, List.length_cons]
  congr 2
  omega

lemma getPos : Yields encoded IterM.getPos it (encoded.length - it.length) it True :=
  of_eq List.suffix_rfl fun _ _ => rfl

lemma substr (h : n ≤ encoded.length) : Yields encoded (IterM.substr n) it () it True := by
  refine fun henc => ⟨henc, fun log => ⟨[.substr n], rfl, ?_⟩⟩
  simpa [Access.InBounds] using h

lemma take : Yields encoded (IterM.take encoded) (c :: it) c it True :=
  deref.bind (next.bind (pure c))

lemma test (p : Char → Bool) :
    Yields encoded (IterM.test encoded p) it (it.head?.any p) it True := by
  refine atEnd.bind ?_
  cases it with
  | nil => exact pure false
  | cons c it => exact deref.bind (pure (p c))

lemma skipChar (c : Char) :
    Yields encoded (IterM.skipChar encoded c) it () (ICDump.skipChar c it) True := by
  refine (test _).bind ?_
  cases it with
  | nil => exact pure ()
  | cons d it =>
      rw [ICDump.skipChar]
      by_cases hd : d = c
      · simpa [hd] using next
      · simpa [hd] using pure ()

/-! ### Loops -/

section

variable {cond : IterM Bool} {body : IterM α}

lemma whileLoop_stop (hcond : Yields encoded cond it false it True) (hn : 0 < n) :
    Yields encoded (Attempt.whileLoop cond body n) it [] it True := by
  obtain ⟨n, rfl⟩ := Nat.exists_eq_succ_of_ne_zero hn.ne'
  exact hcond.bind (pure [])

lemma whileLoop_next {as : List α} (hcond : Yields encoded cond it true it True)
    (hbody : Yields encoded body it a it' safe)
    (hrest : Yields encoded (Attempt.whileLoop cond body n) it' as it'' safe') :
    Yields encoded (Attempt.whileLoop cond body (n + 1)) it (a :: as) it'' (safe ∧ safe') :=
  hcond.bind (hbody.bind_and (hrest.map (a :: ·)))

/-- A loop over letters. -/
lemma whileLoop_letters {p : Char → Bool} {g : Char → α}
    (hcond : ∀ it, Yields encoded cond it (it.head?.any p) it True)
    (hbody : ∀ c it, Yields encoded body (c :: it) (g c) it True) (hn : it.length < n) :
    Yields encoded (Attempt.whileLoop cond body n) it ((it.takeWhile p).map g) (it.dropWhile p)
      True := by
  induction it generalizing n with
  | nil => exact whileLoop_stop (hcond []) hn
  | cons c it ih =>
      obtain ⟨n, rfl⟩ := Nat.exists_eq_succ_of_ne_zero (Nat.ne_zero_of_lt hn)
      have hc := hcond (c :: it)
      rw [List.head?_cons, Option.any_some] at hc
      cases hp : p c with
      | false =>
          rw [hp] at hc
          simpa [hp] using whileLoop_stop hc (Nat.succ_pos n)
      | true =>
          rw [hp] at hc
          rw [List.length_cons] at hn
          simpa [hp] using whileLoop_next hc (hbody c it) (ih (by omega))

lemma whileLoop_take {p : Char → Bool}
    (hcond : ∀ it, Yields encoded cond it (it.head?.any p) it True) (hn : it.length < n) :
    Yields encoded (Attempt.whileLoop cond (IterM.take encoded) n) it (it.takeWhile p)
      (it.dropWhile p) True := by
  simpa using whileLoop_letters (g := id) hcond (fun _ _ => take) hn

/-- A loop over a relation.  The bound has to be larger than what is left of the string. -/
lemma whileLoop {R : Str → β → Str → Prop} {stop : Str → Bool} {g : β → α} {ok : β → Prop}
    {bs : List β} (hstop : stop [] = true)
    (hcond : ∀ it, Yields encoded cond it (!stop it) it True)
    (hR : ∀ it b it', R it b it' → it ≠ [] → it'.length < it.length)
    (hbody : ∀ it b it', it.length < k → R it b it' → Yields encoded body it (g b) it' (ok b))
    (h : Repeats R it stop bs it') (hk : it.length < k) (hn : it.length < n) :
    Yields encoded (Attempt.whileLoop cond body n) it (bs.map g) it' (∀ b ∈ bs, ok b) := by
  induction h generalizing n with
  | @done it stop hs =>
      have hc := hcond it
      rw [hs] at hc
      exact (whileLoop_stop hc (Nat.zero_lt_of_lt hn)).congr (by simp)
  | @next it it' it'' stop b bs hs hb hrest ih =>
      have hc := hcond it
      rw [hs] at hc
      have hne : it ≠ [] := by
        rintro rfl
        rw [hstop] at hs
        exact absurd hs (by simp)
      have hlt := hR it b it' hb hne
      obtain ⟨n, rfl⟩ := Nat.exists_eq_succ_of_ne_zero (Nat.ne_zero_of_lt hn)
      exact (whileLoop_next hc (hbody it b it' hk hb)
        (ih hstop hcond (by omega) (by omega))).congr List.forall_mem_cons.symm

end

/-! ### Tokens -/

lemma skipDigits (hn : it.length < n) :
    Yields encoded (IterM.skipDigits encoded n) it () (ICDump.skipDigits it) True :=
  (whileLoop_letters (g := fun _ => ()) (fun _ => test _) (fun _ _ => next) hn).bind (pure ())

lemma readOptName (hn : it.length < n) :
    Yields encoded (IterM.readOptName encoded n) it (ICDump.readOptName it).1
      (ICDump.readOptName it).2 True := by
  refine (test _).bind ?_
  cases it with
  | nil => exact pure []
  | cons c it =>
      rw [List.length_cons] at hn
      rw [ICDump.readOptName]
      by_cases hc : c = '"'
      · rw [if_pos hc, if_pos (by simpa using hc)]
        exact take.bind ((whileLoop_take (fun _ => test _) (by omega)).bind
          ((skipChar '"').bind (pure _)))
      · rw [if_neg hc, if_neg (by simpa using hc)]
        exact pure []

lemma readStrNumberFrom (w : Str) (hn : it.length < n) :
    Yields encoded (IterM.readStrNumberFrom encoded w n) it (ICDump.readStrNumberFrom w it).1
      (ICDump.readStrNumberFrom w it).2 True := by
  induction it generalizing n w with
  | nil =>
      obtain ⟨n, rfl⟩ := Nat.exists_eq_succ_of_ne_zero (Nat.ne_zero_of_lt hn)
      exact (test _).bind (pure w)
  | cons c it ih =>
      obtain ⟨n, rfl⟩ := Nat.exists_eq_succ_of_ne_zero (Nat.ne_zero_of_lt hn)
      rw [List.length_cons] at hn
      refine (test _).bind ?_
      rw [ICDump.readStrNumberFrom, List.head?_cons, Option.any_some]
      by_cases hc : isDigit c = true
      · rw [if_pos hc, if_pos hc]
        exact take.bind (ih [c] (by omega))
      · rw [if_neg hc, if_neg hc]
        exact pure w

lemma readStrNumber (hn : it.length < n) :
    Yields encoded (IterM.readStrNumber encoded n) it (ICDump.readStrNumber it).1
      (ICDump.readStrNumber it).2 True :=
  readStrNumberFrom [] hn

lemma processSpecifier :
    Yields encoded (IterM.processSpecifier encoded) it (ICDump.processSpecifier it).1
      (ICDump.processSpecifier it).2 True := by
  refine atEnd.bind ?_
  cases it with
  | nil => exact pure _
  | cons c it =>
      refine deref.bind ?_
      rw [ICDump.processSpecifier]
      by_cases hc : specifier c = .unknown
      · rw [if_pos hc, if_pos hc]
        exact pure _
      · rw [if_neg hc, if_neg hc]
        exact next.bind (pure _)

lemma processSpecifiers (hn : it.length < n) :
    Yields encoded (IterM.processSpecifiers encoded n) it () (ICDump.processSpecifiers it)
      True := by
  induction it generalizing n with
  | nil =>
      obtain ⟨n, rfl⟩ := Nat.exists_eq_succ_of_ne_zero (Nat.ne_zero_of_lt hn)
      exact processSpecifier.bind (atEnd.bind (pure ()))
  | cons c it ih =>
      obtain ⟨n, rfl⟩ := Nat.exists_eq_succ_of_ne_zero (Nat.ne_zero_of_lt hn)
      rw [List.length_cons] at hn
      refine processSpecifier.bind (atEnd.bind ?_)
      rw [ICDump.processSpecifier, ICDump.processSpecifiers]
      by_cases hc : specifier c = .unknown
      · simp only [if_pos hc]
        exact pure ()
      · simp only [if_neg hc]
        -- behind the last qualifier the string may end
        cases it with
        | nil => exact pure ()
        | cons d it => exact ih (by omega)

end Yields

/-! ### Composite types -/

/-- Somewhere in the part there is a structure with fields that the end of the string cuts off. -/
inductive Part.RunsOut : Part → Prop
  | here (name : Str) (fs : List (Str × Part)) : RunsOut (.aggregate .struct name false fs)
  | pointer {p : Part} (h : RunsOut p) : RunsOut (.pointer p)
  | element {dim : ℕ} {closed : Bool} {ps : List Part} {p : Part} (hp : p ∈ ps) (h : RunsOut p) :
      RunsOut (.array dim closed ps)
  | field {tag : Aggregate} {name : Str} {closed : Bool} {fs : List (Str × Part)} {f : Str × Part}
      (hf : f ∈ fs) (h : RunsOut f.2) : RunsOut (.aggregate tag name closed fs)

namespace Part

lemma not_runsOut_rejected : ¬ RunsOut .rejected := nofun

lemma not_runsOut_leaf (t : Ty) : ¬ RunsOut (.leaf t) := nofun

lemma runsOut_pointer_iff {p : Part} : RunsOut (.pointer p) ↔ RunsOut p :=
  ⟨fun | .pointer h => h, .pointer⟩

lemma runsOut_array_iff {dim : ℕ} {closed : Bool} {ps : List Part} :
    RunsOut (.array dim closed ps) ↔ ∃ p ∈ ps, RunsOut p :=
  ⟨fun | .element hp h => ⟨_, hp, h⟩, fun ⟨_, hp, h⟩ => .element hp h⟩

lemma runsOut_aggregate_iff {tag : Aggregate} {name : Str} {closed : Bool}
    {fs : List (Str × Part)} :
    RunsOut (.aggregate tag name closed fs) ↔
      tag = .struct ∧ closed = false ∨ ∃ f ∈ fs, RunsOut f.2 := by
  constructor
  · rintro (_ | _ | _ | ⟨hf, h⟩)
    · exact Or.inl ⟨rfl, rfl⟩
    · exact Or.inr ⟨_, hf, h⟩
  · rintro (⟨rfl, rfl⟩ | ⟨f, hf, h⟩)
    · exact .here name fs
    · exact .field hf h

end Part

namespace Yields

variable {encoded it it' rest : Str} {proc : IterM Ty} {n k : ℕ} {delim : Char} {closed : Bool}

/-- The test of the delimiter behind the elements or fields. -/
lemma test_delim (hend : Closes delim closed it rest) :
    Yields encoded (IterM.test encoded (· == delim)) it closed it True := by
  have h : Yields encoded (IterM.test encoded (· == delim)) it (it.head?.any (· == delim)) it
      True := test _
  cases hend with
  | closed rest => simpa using h
  | toEnd => exact h

/-- The condition of the loop over the elements or fields. -/
lemma test_not_delim (delim : Char) (it : Str) :
    Yields encoded (IterM.test encoded (· != delim)) it (!atDelim delim it) it True := by
  have h : Yields encoded (IterM.test encoded (· != delim)) it (it.head?.any (· != delim)) it
      True := test _
  cases it with
  | nil => exact h
  | cons c it => exact h

/-- `process`, called back in the programs of the composite types, follows the rules. -/
def Follows (encoded : Str) (proc : IterM Ty) (k : ℕ) : Prop :=
  ∀ it p rest, it.length < k → Reads it p rest →
    Yields encoded proc it p.type rest (¬ p.RunsOut)

lemma processAttr {f : Str × Part} (hproc : Follows encoded proc k) (hk : it.length < k)
    (hn : k ≤ n) (h : ReadsField it f rest) :
    Yields encoded (IterM.processAttr encoded n proc) it (f.1, f.2.type) rest
      (¬ f.2.RunsOut) := by
  cases h with
  | mk h =>
      have hle := (readOptName_forward it).length_le
      exact (readOptName (by omega)).bind ((hproc _ _ _ (by omega) h).map _)

/-- The fields of a structure or union, and the closing bracket.  What is done without it is a
parameter. -/
lemma fields {mk : List AttrTy → Ty} {fs : List (Str × Part)} {onError : IterM Ty} {safe : Prop}
    (hproc : Follows encoded proc k) (hk : it.length < k) (hn : k ≤ n)
    (herr : Yields encoded onError [] .null [] safe)
    (h : Repeats ReadsField it (atDelim delim) fs it') (hend : Closes delim closed it' rest) :
    Yields encoded (do
        if ← IterM.test encoded (· == delim) then
          IterM.next
          return mk []
        else
          let attributes ← Attempt.whileLoop (IterM.test encoded (· != delim))
            (IterM.processAttr encoded n proc) n
          if ← IterM.test encoded (· == delim) then
            IterM.next
            return mk attributes
          else onError) it
      (if closed then mk (Part.attributes fs) else .null) rest
      ((∀ f ∈ fs, ¬ f.2.RunsOut) ∧ (closed = false → safe)) := by
  have hloop : Yields encoded (Attempt.whileLoop (IterM.test encoded (· != delim))
      (IterM.processAttr encoded n proc) n) it (Part.attributes fs) it'
      (∀ f ∈ fs, ¬ f.2.RunsOut) := by
    rw [Part.attributes_eq]
    exact whileLoop rfl (test_not_delim delim) (fun _ _ _ h hne => h.length_lt hne)
      (fun _ _ _ hlt h => processAttr hproc hlt hn h) h hk (by omega)
  have hclose : Yields encoded (do
      if ← IterM.test encoded (· == delim) then
        IterM.next
        return mk (Part.attributes fs)
      else onError) it' (if closed then mk (Part.attributes fs) else .null) rest
      (closed = false → safe) := by
    refine (test_delim hend).bind ?_
    cases hend with
    | closed rest =>
        have h : Yields encoded IterM.next (delim :: rest) () rest True := next
        exact (h.bind (pure (mk (Part.attributes fs)))).congr (by simp)
    | toEnd => exact herr.congr (by simp)
  refine (test _).bind ?_
  by_cases hd : it.head? = some delim
  · -- without fields the loop stops at once
    obtain ⟨it, rfl⟩ := List.head?_eq_some_iff.1 hd
    cases h with
    | next hs => exact absurd (hs.symm.trans (atDelim_of_head? hd)) (by simp)
    | done hs =>
        cases hend with
        | closed rest => simpa [Part.attributes] using next.bind (pure (mk []))
  · rw [if_neg (by simpa [Option.any_eq_true] using hd)]
    exact hloop.bind_and hclose

/-- The condition of the loop over the name of a structure. -/
lemma test_structName (it : Str) :
    Yields encoded (do
      if ← IterM.test encoded (· != '=') then
        let c ← IterM.deref encoded
        return c != '}'
      else return false) it (it.head?.any fun c => c != '=' && c != '}') it True := by
  refine (test _).bind ?_
  cases it with
  | nil => exact pure false
  | cons c it =>
      have h : Yields encoded (IterM.deref encoded >>= fun c => Pure.pure (c != '}')) (c :: it)
          (c != '}') (c :: it) True := deref.map _
      cases hc : c != '=' with
      | false => simpa [hc] using pure false
      | true => simpa [hc] using h

lemma processStructure_opaque (ho : OpaqueName '}' it) (hn : it.length < n) :
    Yields encoded (IterM.processStructure encoded n proc) it
      (.struct ((ICDump.skipChar '?' it).takeWhile fun c => c != '=' && c != '}') [])
      ((ICDump.skipChar '?' it).dropWhile fun c => c != '=' && c != '}').tail True := by
  have hle := (skipChar_suffix '?' it).length_le
  refine (skipChar '?').bind ((whileLoop_take test_structName (by omega)).bind ((test _).bind ?_))
  obtain ⟨rest, hrest⟩ := List.head?_eq_some_iff.1 ho
  rw [hrest, if_pos (by simp)]
  exact next.bind (pure _)

lemma processStructure {fs : List (Str × Part)} (hproc : Follows encoded proc k)
    (hk : it.length < k) (hn : k ≤ n) (ho : ¬ OpaqueName '}' it)
    (h : Repeats ReadsField (bodyAt it) (atDelim '}') fs it') (hend : Closes '}' closed it' rest) :
    Yields encoded (IterM.processStructure encoded n proc) it
      (if closed then .struct (nameAt it) (Part.attributes fs) else .null) rest
      ((∀ f ∈ fs, ¬ f.2.RunsOut) ∧ closed = true) := by
  have hle := (skipChar_suffix '?' it).length_le
  have hbody := (bodyAt_suffix it).length_le
  obtain ⟨hdrop, htake⟩ := span_of_not_opaqueName ho
  rw [OpaqueName, hdrop] at ho
  obtain ⟨c, herr⟩ := deref_nil
  refine (skipChar '?').bind ((whileLoop_take test_structName (by omega)).bind ?_)
  rw [hdrop, htake]
  refine (test _).bind ?_
  rw [if_neg (by simpa [Option.any_eq_true] using ho)]
  refine (skipChar '=').bind
    ((fields hproc (by omega) hn (herr.map fun _ => Ty.null) h hend).congr ?_)
  cases closed <;> simp

lemma processUnion {fs : List (Str × Part)} (hproc : Follows encoded proc k)
    (hk : it.length < k) (hn : k ≤ n)
    (h : Repeats ReadsField (bodyAt it) (atDelim ')') fs it') (hend : Closes ')' closed it' rest) :
    Yields encoded (IterM.processUnion encoded n proc) it
      (if closed then .union (nameAt it) (Part.attributes fs) else .null) rest
      (∀ f ∈ fs, ¬ f.2.RunsOut) := by
  have hle := (skipChar_suffix '?' it).length_le
  have hbody := (bodyAt_suffix it).length_le
  refine (skipChar '?').bind ((whileLoop_take (fun _ => test _) (by omega)).bind
    ((skipChar '=').bind ((fields hproc (by omega) hn (pure Ty.null) h hend).congr ?_)))
  simp

lemma processBitfield (hn : it.length < n) :
    Yields encoded (IterM.processBitfield encoded n) it (ICDump.processBitfield it).1
      (ICDump.processBitfield it).2 True := by
  refine (readStrNumber hn).bind ?_
  rw [ICDump.processBitfield]
  split
  · exact pure _
  · exact pure _

lemma processObject (hn : it.length < n) :
    Yields encoded (IterM.processObject encoded n) it (ICDump.processObject it).1
      (ICDump.processObject it).2 True := by
  refine (test _).bind ?_
  rw [ICDump.processObject]
  by_cases hb : it.head? = some '?'
  · obtain ⟨rest, rfl⟩ := List.head?_eq_some_iff.1 hb
    simpa using next.bind (pure Ty.block)
  · rw [if_neg hb, if_neg (by simpa [Option.any_eq_true] using hb)]
    exact (readOptName hn).map _

lemma processArray {ps : List Part} (hproc : Follows encoded proc k) (hk : it.length < k)
    (hn : k ≤ n) (hnum : (ICDump.readStrNumber it).1 ≠ [])
    (h : Repeats Reads (ICDump.readStrNumber it).2 (atDelim ']') ps it')
    (hend : Closes ']' closed it' rest) :
    Yields encoded (IterM.processArray encoded n proc) it
      (Part.array (strtoull (ICDump.readStrNumber it).1) closed ps).type rest
      (∀ p ∈ ps, ¬ p.RunsOut) := by
  have hle : (ICDump.readStrNumber it).2.length ≤ it.length :=
    (readStrNumberFrom_forward [] it).length_le
  have hloop : Yields encoded (Attempt.whileLoop (IterM.test encoded (· != ']')) proc n)
      (ICDump.readStrNumber it).2 (ps.map Part.type) it' (∀ p ∈ ps, ¬ p.RunsOut) :=
    whileLoop rfl (test_not_delim ']') (fun _ _ _ h hne => h.length_lt hne)
      (fun _ _ _ hlt h => hproc _ _ _ hlt h) h (by omega) (by omega)
  refine (readStrNumber (by omega)).bind ?_
  rw [if_neg hnum, Part.type, Part.types_eq]
  refine (hloop.bind_and ((test_delim hend).bind ?_)).congr (by rw [and_true])
  cases hend with
  | closed rest => exact next.bind (pure _)
  | toEnd => exact pure _

lemma processPointer {p : Part} (hproc : Follows encoded proc k) (hk : it.length < k)
    (hv : it.head? ≠ some '?') (h : Reads it p rest) :
    Yields encoded (IterM.processPointer encoded proc) it (Part.pointer p).type rest
      (¬ p.RunsOut) := by
  refine (test _).bind ?_
  rw [if_neg (by simpa [Option.any_eq_true] using hv)]
  refine getPos.bind (((hproc _ _ _ hk h).bind_and ?_).congr (by rw [and_true]))
  rw [Part.type]
  cases hnull : p.type.isNull with
  | false => exact pure _
  | true => exact (substr (Nat.sub_le _ _)).bind (pure _)

/-! ### `process` -/

/-- On a letter that encodes no type, the default case of the `switch` is taken. -/
lemma processCode_unsupported {c : Char} (hc : c ∉ typeCodes) :
    IterM.processCode encoded n proc c = IterM.unsupported := by
  unfold IterM.processCode
  split <;> first | rfl | exact absurd (by decide) hc

lemma unsupported : Yields encoded IterM.unsupported it .null it True :=
  getPos.bind ((substr (by omega)).bind (pure Ty.null))

lemma processCode_code (p : Primitive) :
    IterM.processCode encoded n proc p.code = Pure.pure (.primitive p) := by
  cases p <;> rfl

lemma processCode_rejected {c : Char} (h : RejectedAt c it) (hn : it.length < n) :
    Yields encoded (IterM.processCode encoded n proc c) it .null it True := by
  cases h with
  | unsupported hc =>
      rw [processCode_unsupported hc]
      exact unsupported
  | noWidth hnum =>
      have h : Yields encoded (IterM.processBitfield encoded n) it _ _ True := processBitfield hn
      rwa [processBitfield_of_nil hnum] at h
  | noDimension hnum =>
      refine (readStrNumber hn).bind ?_
      rw [if_pos hnum, readStrNumber_of_nil hnum]
      exact pure Ty.null

lemma processCode_leaf {c : Char} {t : Ty} (h : LeafAt c it t rest) (hn : it.length < n) :
    Yields encoded (IterM.processCode encoded n proc c) it t rest True := by
  cases h with
  | primitive p =>
      rw [processCode_code]
      exact pure _
  | cls | selector | unknown => exact pure _
  | bitField hnum =>
      have h : Yields encoded (IterM.processBitfield encoded n) it _ _ True := processBitfield hn
      rwa [ICDump.processBitfield, if_neg hnum] at h
  | voidPointer | block => exact (test _).bind (next.bind (pure _))
  | object hq =>
      have h : Yields encoded (IterM.processObject encoded n) it _ _ True := processObject hn
      rwa [ICDump.processObject, if_neg hq] at h
  | opaqueStruct ho => exact processStructure_opaque ho hn

/-- `process` runs up to the `switch`. -/
lemma process_of_codeAt {c : Char} {t : Ty} {safe : Prop} (hc : codeAt it = c :: it')
    (hn : it.length < n + 1) (h : Yields encoded
      (IterM.processCode encoded (n + 1) (IterM.process encoded n) c) it' t rest safe) :
    Yields encoded (IterM.process encoded (n + 1)) it t rest safe := by
  have hle := (skipDigits_suffix it).length_le
  refine (skipDigits hn).bind (atEnd.bind ?_)
  rw [if_neg (by
    intro hnil
    rw [codeAt, List.isEmpty_iff.1 hnil] at hc
    exact absurd hc (by simp [ICDump.processSpecifiers]))]
  refine (processSpecifiers (by omega)).bind (atEnd.bind ?_)
  rw [← codeAt, hc]
  exact take.bind h

lemma process_of_codeAt_nil (hc : codeAt it = []) (hn : it.length < n + 1) :
    Yields encoded (IterM.process encoded (n + 1)) it .null [] True := by
  have hle := (skipDigits_suffix it).length_le
  refine (skipDigits hn).bind (atEnd.bind ?_)
  by_cases hnil : ICDump.skipDigits it = []
  · rw [hnil]
    exact pure Ty.null
  · rw [if_neg (by simpa using hnil)]
    refine (processSpecifiers (by omega)).bind (atEnd.bind ?_)
    rw [← codeAt, hc]
    exact pure Ty.null

/-- **The program `process` follows the rules**, when its bound is larger than what is left. -/
theorem process (n : ℕ) : Follows encoded (IterM.process encoded n) n := by
  induction n with
  | zero => exact fun it p rest hn => absurd hn (by omega)
  | succ n ih =>
      intro it p rest hn h
      have hlt : ∀ {c it'}, codeAt it = c :: it' → it'.length < n := fun hc => by
        have hlt := length_lt_of_codeAt hc
        omega
      cases h with
      | nothing hc =>
          exact (process_of_codeAt_nil hc hn).congr (by simp [Part.not_runsOut_rejected])
      | rejected hc h =>
          exact (process_of_codeAt hc hn (processCode_rejected h (by have := hlt hc; omega))).congr
            (by simp [Part.not_runsOut_rejected])
      | leaf hc h =>
          exact (process_of_codeAt hc hn (processCode_leaf h (by have := hlt hc; omega))).congr
            (by simp [Part.not_runsOut_leaf])
      | pointer hc hv h =>
          exact (process_of_codeAt hc hn (processPointer ih (hlt hc) hv h)).congr
            (not_congr Part.runsOut_pointer_iff.symm)
      | array hc hnum h hend =>
          exact (process_of_codeAt hc hn
            (processArray ih (hlt hc) (Nat.le_succ n) hnum h hend)).congr
              (by simp [Part.runsOut_array_iff])
      | @aggregate _ _ _ _ tag fs closed hc ho h hend =>
          refine process_of_codeAt hc hn ?_
          cases tag with
          | struct =>
              exact (processStructure ih (hlt hc) (Nat.le_succ n) (ho rfl) h hend).congr
                (by simp [Part.runsOut_aggregate_iff, and_comm])
          | union =>
              exact (processUnion ih (hlt hc) (Nat.le_succ n) h hend).congr
                (by simp [Part.runsOut_aggregate_iff])

/-- **The program `decode_type` follows the rules**, when its bound is larger than the string. -/
theorem decodeType {ps : List Part} (h : Splits encoded ps) (hn : encoded.length < n) :
    Yields encoded (IterM.decodeType encoded n) encoded (ICDump.decodeType encoded) []
      (∀ p ∈ ps, ¬ p.RunsOut) := by
  have hcond : ∀ it, Yields encoded (do return !(← IterM.atEnd encoded)) it (!it.isEmpty) it True :=
    fun it => atEnd.map (!·)
  have hbody : ∀ it p it', it.length < n → Reads (ICDump.processSpecifier it).2 p it' →
      Yields encoded (do
        let _ ← IterM.processSpecifier encoded
        IterM.process encoded n) it p.type it' (¬ p.RunsOut) := fun it p it' hlt h =>
    processSpecifier.bind (process n _ p it'
      ((processSpecifier_forward it).length_le.trans_lt hlt) h)
  rw [h.decodeType_eq, IterM.decodeType]
  by_cases hnil : encoded = []
  · subst hnil
    cases h with
    | done => exact (pure []).congr (by simp)
    | next hs => exact absurd hs (by simp)
  · rw [if_neg (by simpa using hnil)]
    exact (whileLoop List.isEmpty_nil hcond (fun _ _ _ h hne => h.length_lt_of_specifier hne)
      hbody h hn hn).map _

end Yields

/-! ### Accesses -/

lemma Splits.inBounds_iff {s : Str} {ps : List Part} (h : Splits s ps) :
    (∀ x ∈ accesses s, x.InBounds s.length) ↔ ∀ p ∈ ps, ¬ p.RunsOut := by
  obtain ⟨-, hrun⟩ := Yields.decodeType h (Nat.lt_succ_self _) List.suffix_rfl
  obtain ⟨l, hl, hsafe⟩ := hrun []
  rw [cursorAt, Nat.sub_self] at hl
  rw [accesses, hl]
  exact hsafe

/-- **The decoder looks at the end of the string when a structure with fields is cut off there, and
in no other case.** -/
theorem accesses_inBounds (s : Str) :
    (∀ x ∈ accesses s, x.InBounds s.length) ↔
      ∀ ps, Splits s ps → ∀ p ∈ ps, ¬ p.RunsOut :=
  iff_forall_splits fun _ h => h.inBounds_iff

/-- `process`, called at `it`, finds a structure with fields, and its loop on the fields runs to the
end of the string. -/
def CutOffAt (it : Str) : Prop :=
  ∃ rest, codeAt it = '{' :: rest ∧ ¬ OpaqueName '}' rest ∧
    (Reader.repeatUntil (atDelim '}') (processAttr process) (bodyAt rest)).2 = []

lemma Reads.cutOffAt_iff {it rest : Str} {p : Part} (h : Reads it p rest) :
    CutOffAt it ↔ ∃ n fs, p = .aggregate .struct n false fs := by
  have hR : ∀ it f it', ReadsField it f it' → (processAttr process it).2 = it' :=
    fun _ _ _ h => h.processAttr_snd
  constructor
  · rintro ⟨rest', hc, ho, hend⟩
    obtain ⟨fs, closed, it', rfl, hloop, hclose⟩ :=
      h.aggregate_of_codeAt .struct hc fun _ => ho
    obtain rfl := (hloop.repeatUntil_snd rfl processAttr_advances hR).symm.trans hend
    cases hclose
    exact ⟨_, fs, rfl⟩
  · rintro ⟨n, fs, rfl⟩
    cases h with
    | aggregate hc ho hloop hend =>
        cases hend
        exact ⟨_, hc, ho rfl, hloop.repeatUntil_snd rfl processAttr_advances hR⟩

lemma Part.runsOut_iff (p : Part) :
    p.RunsOut ↔ (∃ n fs, p = .aggregate .struct n false fs) ∨ ∃ q ∈ p.parts, q.RunsOut := by
  cases p with
  | rejected => simp [not_runsOut_rejected, parts]
  | leaf t => simp [not_runsOut_leaf, parts]
  | pointer p => simp [runsOut_pointer_iff, parts]
  | array dim closed ps => simp [runsOut_array_iff, parts]
  | aggregate tag name closed fs =>
      rw [runsOut_aggregate_iff, parts]
      refine or_congr ⟨?_, ?_⟩ ⟨?_, ?_⟩
      · rintro ⟨rfl, rfl⟩
        exact ⟨name, fs, rfl⟩
      · rintro ⟨n, fs', h⟩
        cases h
        exact ⟨rfl, rfl⟩
      · rintro ⟨f, hf, h⟩
        exact ⟨f.2, List.mem_map_of_mem hf, h⟩
      · rintro ⟨q, hq, h⟩
        obtain ⟨f, hf, rfl⟩ := List.mem_map.1 hq
        exact ⟨f, hf, h⟩

/-- On the text, this means that no structure's loop on its fields runs to the end of the string,
because its bracket is missing, or was taken for the code of a type. -/
theorem inBounds_iff_reaches (s : Str) :
    (∀ x ∈ accesses s, x.InBounds s.length) ↔ ∀ it, Reaches s it → ¬ CutOffAt it := by
  obtain ⟨ps, hps⟩ := exists_splits s
  have hcut := Splits.exists_iff_reaches (fun _ _ _ h =>
    h.exists_iff_calls Part.runsOut_iff fun _ _ _ h => h.cutOffAt_iff) hps
  rw [Splits.inBounds_iff hps]
  simpa only [not_exists, not_and] using not_congr hcut

/-- The structure `S` is not closed. -/
theorem accesses_outOfBounds :
    ¬ ∀ x ∈ accesses ['{', 'S', '=', 'i'], x.InBounds (List.length ['{', 'S', '=', 'i']) := by
  decide +kernel

end ICDump
