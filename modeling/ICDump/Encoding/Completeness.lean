/-
Trees with a missing part.

A pointer is not made when there is no type behind it.  Structures, unions and arrays are: a
field without a type becomes an attribute whose type is null, and so does the element of an
array that is empty or ends with something that encodes no type.  `LacksAt` says of a string
that the type read from it has such a field or array somewhere, `lacksAt_iff` that this is how a
tree comes to have a null pointer in it.
-/
import ICDump.Encoding.Calls
import ICDump.Encoding.EmptyArray
import ICDump.Encoding.Print

namespace ICDump

/-- `Keeps it it'`: the type that `process` reads at `it` has a part, the last element of an array
or a field of a structure or union, which is read at `it'`.  The closing bracket comes right behind
the last element, or the last field. -/
inductive Keeps : Str → Str → Prop
  | last {it rest it' : Str} (hc : codeAt it = '[' :: rest) (hcall : Calls it it')
      (hclose : (process it').2.head? = some ']') : Keeps it it'
  | field {it rest it' it'' : Str} {tag : Aggregate} (hc : codeAt it = tag.opening :: rest)
      (hlast : Calls it it'') (hclose : (process it'').2.head? = some tag.closing)
      (hcall : Calls it it') : Keeps it it'

/-- The type that `process` reads at `it` lacks a part: in it, there is an array whose bracket
closes right behind the dimension, or a letter that encodes no type in the place of the last
element or of a field. -/
inductive LacksAt : Str → Prop
  | empty {it rest : Str} (hc : codeAt it = '[' :: rest) (hnum : (readStrNumber rest).1 ≠ [])
      (h : (readStrNumber rest).2.head? = some ']') : LacksAt it
  | missing {it it' : Str} (hk : Keeps it it') (h : NoTypeAt it') : LacksAt it
  | inside {it it' : Str} (hk : Keeps it it') (h : LacksAt it') : LacksAt it
  | pointer {it rest : Str} (hc : codeAt it = '^' :: rest) (hv : rest.head? ≠ some '?')
      (h : LacksAt rest) : LacksAt it

/-- Decoding the string `s` starts a type that lacks a part. -/
def Lacking (s : Str) : Prop :=
  ∃ it, Reader.Visits List.isEmpty decodeStep s it ∧ LacksAt (processSpecifier it).2

variable {it it' rest rest' : Str} {p : Part} {c : Char} {t : Ty}

/-! ### Complete trees -/

lemma Ty.not_complete_null : ¬ Ty.null.Complete := fun h => h rfl

lemma LeafAt.complete (h : LeafAt c it t rest) : t.Complete := by
  cases h with
  | voidPointer | opaqueStruct => simp [Ty.Complete, Ty.All, Ty.AllAttrs]
  | _ => exact Ty.noConfusion

lemma Aggregate.complete_type_iff (tag : Aggregate) (n : Str) (as : List AttrTy) :
    (tag.type n as).Complete ↔ ∀ a ∈ as, a.2.Complete := by
  cases tag <;> simp [type, Ty.Complete, Ty.All, Ty.allAttrs_iff]

/-! ### Parts that are kept -/

/-- What is kept of a type belongs to its tree. -/
lemma Keeps.exists_part (hk : Keeps it it') (h : Reads it p rest) :
    p.isType = true ∧ ∃ q rest', Reads it' q rest' ∧ (p.type.Complete → q.type.Complete) := by
  cases hk with
  | last hc hcall hclose =>
      obtain ⟨hnum, hv⟩ := (calls_array_iff hc).1 hcall
      obtain ⟨ps, closed, it₁, rfl, hloop, hend⟩ := h.array_of_codeAt hc hnum
      obtain ⟨q, hlast, hq⟩ := hloop.getLast?_of_visits (fun _ _ _ h => h.process_snd) hv
        (atDelim_of_head? hclose)
      rw [hq.process_snd] at hclose
      obtain rfl := hend.head?_eq.1.1 hclose
      refine ⟨rfl, q, it₁, hq, fun hcomplete => ?_⟩
      rw [Part.type, if_pos rfl, Part.types_eq, List.getLast?_map, hlast] at hcomplete
      exact hcomplete.2
  | @field _ _ _ tag hc hlast hclose hcall =>
      obtain ⟨ho, it₂, hv₂, rfl⟩ := (calls_aggregate_iff _ hc).1 hlast
      obtain ⟨-, it₁, hv, rfl⟩ := (calls_aggregate_iff _ hc).1 hcall
      obtain ⟨fs, closed, it₃, rfl, hloop, hend⟩ := h.aggregate_of_codeAt _ hc ho
      have hR : ∀ it f rest, ReadsField it f rest → (processAttr process it).2 = rest :=
        fun _ _ _ h => h.processAttr_snd
      obtain ⟨_, -, hf⟩ := hloop.getLast?_of_visits hR hv₂ (atDelim_of_head? hclose)
      have hclosed : it₃.head? = some tag.closing := by
        rw [← hf.processAttr_snd]
        exact hclose
      obtain rfl := hend.head?_eq.1.1 hclosed
      obtain ⟨f, hmem, rest', hread⟩ := hloop.exists_mem hR hv
      cases hread with
      | mk hread =>
          refine ⟨rfl, _, rest', hread, fun hcomplete => ?_⟩
          rw [Part.type, if_pos rfl, tag.complete_type_iff, Part.attributes_eq,
            List.forall_mem_map] at hcomplete
          exact hcomplete _ hmem

/-- A type with a null pointer in its tree lacks a part. -/
lemma Reads.lacksAt (h : Reads it p rest) (hp : p.isType = true) (hc : ¬ p.type.Complete) :
    LacksAt it := by
  induction hn : it.length using Nat.strong_induction_on generalizing it p rest with
  | _ n ih =>
      -- something that is kept is missing, or lacks a part itself
      have hkeeps : ∀ {it' q rest'}, Keeps it it' → Calls it it' → Reads it' q rest' →
          rest' ≠ [] → ¬ q.type.Complete → LacksAt it := by
        intro it' q rest' hk hcall hq hne hqc
        cases htype : q.isType with
        | false => exact .missing hk (hq.noTypeAt htype hne)
        | true => exact .inside hk (ih _ (hn ▸ hcall.length_lt) hq htype hqc rfl)
      cases h with
      | nothing | rejected => exact absurd hp (by simp [Part.isType])
      | leaf _ hl => exact absurd hl.complete hc
      | @pointer _ rest _ p hcode hv h =>
          have hpc : ¬ p.type.Complete := fun hpc => hc (by
            rw [Part.type, if_neg (by simpa using h.ne_null hp)]
            exact ⟨Ty.noConfusion, hpc⟩)
          exact .pointer hcode hv (ih _ (hn ▸ length_lt_of_codeAt hcode) h hp hpc rfl)
      | @array _ rest it₁ _ ps closed hcode hnum hloop hend =>
          obtain rfl : closed = true := hp
          have hclosed : it₁.head? = some ']' := hend.head?_eq.1.2 rfl
          rw [Part.type, if_pos rfl, Part.types_eq, List.getLast?_map] at hc
          cases hlast : ps.getLast? with
          | none =>
              obtain rfl := List.getLast?_eq_none_iff.1 hlast
              cases hloop
              exact .empty hcode hnum hclosed
          | some q =>
              obtain ⟨it', hv, hq⟩ := hloop.exists_last_visit (fun _ _ _ h => h.process_snd) hlast
              have hcall : Calls it it' := .array hcode hnum hv
              rw [hlast] at hc
              refine hkeeps (.last hcode hcall (hq.process_snd.symm ▸ hclosed)) hcall hq ?_
                fun hqc => hc ⟨Ty.noConfusion, hqc⟩
              rintro rfl
              exact absurd hclosed (by simp)
      | @aggregate _ rest it₁ _ tag fs closed hcode ho hloop hend =>
          obtain rfl : closed = true := hp
          have hclosed : it₁.head? = some tag.closing := hend.head?_eq.1.2 rfl
          rw [Part.type, if_pos rfl, tag.complete_type_iff, Part.attributes_eq,
            List.forall_mem_map] at hc
          simp only [not_forall] at hc
          obtain ⟨f, hf, hfc⟩ := hc
          have hR : ∀ it f rest, ReadsField it f rest → (processAttr process it).2 = rest :=
            fun _ _ _ h => h.processAttr_snd
          have hcalls : ∀ {it₁}, Reader.Visits (atDelim tag.closing) (processAttr process)
              (bodyAt rest) it₁ → Calls it (readOptName it₁).2 := fun hv =>
            (calls_aggregate_iff _ hcode).2 ⟨ho, _, hv, rfl⟩
          obtain ⟨it', rest', hv, hread, hsuf⟩ :=
            hloop.exists_visit (processAttr_forward process_forward) hR hf
          -- there is a field, and so there is a last one
          obtain ⟨l, hl⟩ : ∃ l, fs.getLast? = some l :=
            ⟨_, List.getLast?_eq_some_getLast (List.ne_nil_of_mem hf)⟩
          obtain ⟨it'', hv'', hlast⟩ := hloop.exists_last_visit hR hl
          have hclose : (process (readOptName it'').2).2.head? = some tag.closing := by
            show (processAttr process it'').2.head? = some tag.closing
            rw [hlast.processAttr_snd, hclosed]
          cases hread with
          | mk hread =>
              refine hkeeps (.field hcode (hcalls hv'') hclose (hcalls hv)) (hcalls hv) hread ?_ hfc
              rintro rfl
              rw [List.suffix_nil.1 hsuf] at hclosed
              exact absurd hclosed (by simp)

/-- A type lacks a part exactly when there is a null pointer in its tree. -/
lemma lacksAt_iff : LacksAt it ↔ (process it).1 ≠ .null ∧ ¬ (process it).1.Complete := by
  constructor
  · intro h
    induction h with
    | empty hc hnum h =>
        rw [process_of_codeAt hc, processCode_array, processArray_empty hnum h]
        exact ⟨Ty.noConfusion, fun hc => Ty.not_complete_null hc.2⟩
    | @missing it it' hk h =>
        obtain ⟨p, rest, hp⟩ := exists_reads it
        obtain ⟨htype, q, rest', hq, hcomplete⟩ := hk.exists_part hp
        have hnull := h.process_null
        rw [hq.process_eq] at hnull
        rw [hp.process_eq]
        exact ⟨hp.ne_null htype, fun hc => (hcomplete hc).self hnull⟩
    | @inside it it' hk h ih =>
        obtain ⟨p, rest, hp⟩ := exists_reads it
        obtain ⟨htype, q, rest', hq, hcomplete⟩ := hk.exists_part hp
        rw [hq.process_eq] at ih
        rw [hp.process_eq]
        exact ⟨hp.ne_null htype, fun hc => ih.2 (hcomplete hc)⟩
    | pointer hc hv h ih =>
        rw [process_of_codeAt hc, processCode_pointer, processPointer_of_ne hv,
          if_neg (by simpa using ih.1)]
        exact ⟨Ty.noConfusion, fun hc => ih.2 hc.2⟩
  · rintro ⟨hne, hc⟩
    obtain ⟨p, rest, h⟩ := exists_reads it
    rw [h.process_eq] at hne hc
    have hnull := h.isNull_type
    rw [Ty.isNull_eq_false_iff.2 hne] at hnull
    exact h.lacksAt (by simpa using hnull.symm) hc

/-! ### Signatures -/

/-- **No child of a decoded tree is null** exactly when the string starts no type that lacks a
part. -/
theorem decodeType_complete (s : Str) : (∀ t ∈ decodeType s, t.Complete) ↔ ¬ Lacking s := by
  constructor
  · rintro h ⟨it, hv, hlacks⟩
    obtain ⟨hne, hc⟩ := lacksAt_iff.1 hlacks
    have hmem := (Reader.mem_repeatUntil_iff rfl decodeStep_advances).2 ⟨it, hv, rfl⟩
    exact hc (h _ (List.mem_filter.2 ⟨hmem, by simpa using hne⟩))
  · intro h t ht
    obtain ⟨hmem, hne⟩ := List.mem_filter.1 ht
    obtain ⟨it, hv, rfl⟩ := (Reader.mem_repeatUntil_iff rfl decodeStep_advances).1 hmem
    by_contra hc
    exact h ⟨it, hv, lacksAt_iff.2 ⟨by simpa [decodeStep] using hne, hc⟩⟩

/-- The structure `{S=D}` has a field whose type is null, and the array `[4]` no element type. -/
theorem decodeType_missing :
    decodeType ['{', 'S', '=', 'D', '}', '[', '4', ']'] =
        [.struct ['S'] [([], .null)], .array 4 .null] ∧
      ¬ ∀ s, ∀ t ∈ decodeType s, t.Complete := by
  have hdecode : decodeType ['{', 'S', '=', 'D', '}', '[', '4', ']'] =
      [.struct ['S'] [([], .null)], .array 4 .null] := rfl
  refine ⟨hdecode, fun h => ?_⟩
  have hc := h ['{', 'S', '=', 'D', '}', '[', '4', ']'] (.array 4 .null) (by simp [hdecode])
  exact Ty.not_complete_null hc.2

end ICDump
