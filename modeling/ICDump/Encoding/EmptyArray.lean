/-
Arrays without an element type (`process_array`).

A pointer is not made when there is nothing that it could point to, but an array is: its
closing bracket may come right after its dimension, or after a letter that encodes no type.
`HollowAt` says of a string that the type read from it ends in such an array, `hollowAt_iff`
that this is how a tree comes to have a null pointer below pointers and arrays.
-/
import ICDump.Encoding.Calls

namespace ICDump

/-- Following pointers and elements of arrays from the type leads to null. -/
def Ty.NullBelow : Ty → Prop
  | pointer t => t = null ∨ t.NullBelow
  | array _ t => t = null ∨ t.NullBelow
  | _ => False

lemma Ty.NullBelow.ne_null {t : Ty} (h : t.NullBelow) : t ≠ null := by
  rintro rfl
  exact h

/-- Before `]`, the letter `c` encodes no type: it opens an array or a bit field, whose number
is missing, or the `switch` of `process` does not know it. -/
def Barren (c : Char) : Prop :=
  c = '[' ∨ c = 'b' ∨ ∀ it, processCode process c it = (.null, it)

/-- `process`, called at `it`, meets a letter that encodes no type right before `]`, perhaps
behind letters for pointers. -/
inductive BarrenAt : Str → Prop
  | letter {it rest : Str} {c : Char} (hc : codeAt it = c :: ']' :: rest) (h : Barren c) :
      BarrenAt it
  | pointer {it rest : Str} (hc : codeAt it = '^' :: rest) (hv : rest.head? ≠ some '?')
      (h : BarrenAt rest) : BarrenAt it

/-- Behind pointers and elements of arrays, the type that `process` reads at `it` is an array
that closes right after its dimension or after a letter that encodes no type. -/
inductive HollowAt : Str → Prop
  | empty {it rest : Str} (hc : codeAt it = '[' :: rest) (hnum : (readStrNumber rest).1 ≠ [])
      (h : (readStrNumber rest).2.head? = some ']') : HollowAt it
  | barren {it rest it' : Str} (hc : codeAt it = '[' :: rest) (hnum : (readStrNumber rest).1 ≠ [])
      (hv : Reader.Visits (atDelim ']') process (readStrNumber rest).2 it') (h : BarrenAt it') :
      HollowAt it
  | array {it rest it' : Str} (hc : codeAt it = '[' :: rest) (hnum : (readStrNumber rest).1 ≠ [])
      (hv : Reader.Visits (atDelim ']') process (readStrNumber rest).2 it')
      (hclose : (process it').2.head? = some ']') (h : HollowAt it') : HollowAt it
  | pointer {it rest : Str} (hc : codeAt it = '^' :: rest) (hv : rest.head? ≠ some '?')
      (h : HollowAt rest) : HollowAt it

/-- Decoding the string `w` starts a type that ends in an array without an element type. -/
def Hollow (w : Str) : Prop :=
  ∃ it, Reader.Visits List.isEmpty decodeStep w it ∧ HollowAt (processSpecifier it).2

/-! ### Where nothing is read before a bracket -/

variable {c : Char} {it rest : Str}

lemma readStrNumber_bracket (it : Str) : (readStrNumber (']' :: it)).1 = [] := rfl

/-- The letters that encode no type before a bracket. -/
lemma barren_iff : Barren c ↔ RejectedAt c (']' :: rest) := by
  constructor
  · rintro (rfl | rfl | h)
    · exact .noDimension (readStrNumber_bracket rest)
    · exact .noWidth (readStrNumber_bracket rest)
    · refine .unsupported fun hc => ?_
      -- every letter for which there is a case gives a type on some string
      have hnull : ∀ c ∈ typeCodes, ∃ it, (processCode process c it).1.isNull = false := by
        simp only [typeCodes, List.forall_mem_cons]
        refine ⟨?_, ?_, ?_, ?_, ?_, ?_, ?_, ?_, ?_, ?_, ?_, ?_, ?_, ?_, ?_, ?_, ?_, ?_, ?_, ?_, ?_,
          ?_, ?_, ?_, List.forall_mem_nil _⟩
        all_goals first
          | exact ⟨[], rfl⟩
          | exact ⟨['0', ']'], rfl⟩
          | exact ⟨['}'], rfl⟩
          | exact ⟨['=', ')'], rfl⟩
          | exact ⟨['?'], rfl⟩
      obtain ⟨it, hit⟩ := hnull c hc
      rw [h it] at hit
      exact absurd hit (by simp [Ty.isNull])
  · intro h
    cases h with
    | unsupported hc => exact Or.inr (Or.inr (processCode_other hc))
    | noWidth => exact Or.inr (Or.inl rfl)
    | noDimension => exact Or.inl rfl

/-- `process` leaves a bracket and answers null exactly where nothing is read before it. -/
lemma barrenAt_iff : BarrenAt it ↔ (process it).1 = .null ∧ (process it).2.head? = some ']' := by
  constructor
  · intro h
    induction h with
    | letter hc h =>
        rw [process_of_codeAt hc, (barren_iff.1 h).processCode_eq]
        exact ⟨rfl, rfl⟩
    | pointer hc hv h ih =>
        rw [process_of_codeAt hc, processCode_pointer, processPointer_of_ne hv,
          if_pos (Ty.isNull_iff.2 ih.1)]
        exact ⟨rfl, ih.2⟩
  · rintro ⟨hnull, hclose⟩
    have hnone : NoTypeAt it := (noTypeAt_iff fun hnil => by
      rw [hnil] at hclose
      exact absurd hclose (by simp)).2 hnull
    induction hnone with
    | letter hc hr =>
        rw [process_of_codeAt hc, hr.processCode_eq] at hclose
        obtain ⟨rest, rfl⟩ := List.head?_eq_some_iff.1 hclose
        exact .letter hc (barren_iff.2 hr)
    | pointer hc hv h ih =>
        rw [process_of_codeAt hc, processCode_pointer, processPointer_of_ne hv,
          if_pos (Ty.isNull_iff.2 h.process_null)] at hclose
        exact .pointer hc hv (ih h.process_null hclose)

/-! ### The trees that lead to null -/

/-- An array that closes right after its dimension. -/
lemma processArray_empty (hnum : (readStrNumber it).1 ≠ [])
    (h : (readStrNumber it).2.head? = some ']') :
    (processArray process it).1 = .array (strtoull (readStrNumber it).1) .null := by
  simp only [processArray, if_neg hnum, Reader.repeatUntil_of_stop (atDelim_of_head? h), if_pos h]
  rfl

/-- An array that closes after the type at `it'`. -/
lemma processArray_last {it' : Str} (hnum : (readStrNumber it).1 ≠ [])
    (hv : Reader.Visits (atDelim ']') process (readStrNumber it).2 it')
    (hclose : (process it').2.head? = some ']') :
    (processArray process it).1 = .array (strtoull (readStrNumber it).1) (process it').1 := by
  obtain ⟨hlast, hend⟩ := Reader.repeatUntil_of_visits rfl process_advances hv
    (atDelim_of_head? hclose)
  simp only [processArray, if_neg hnum, hend, if_pos hclose, hlast]
  rfl

lemma LeafAt.not_nullBelow {t : Ty} (h : LeafAt c it t rest) : ¬ t.NullBelow := by
  cases h with
  | voidPointer => exact fun hbelow => hbelow.elim Ty.noConfusion id
  | _ => exact id

lemma Aggregate.not_nullBelow (tag : Aggregate) (n : Str) (as : List AttrTy) :
    ¬ (tag.type n as).NullBelow := by
  cases tag <;> exact id

/-- A part leads to null only where it ends in an array without an element type. -/
lemma Reads.hollowAt {p : Part} (h : Reads it p rest) (hbelow : p.type.NullBelow) :
    HollowAt it := by
  induction hn : it.length using Nat.strong_induction_on generalizing it p rest with
  | _ n ih =>
      cases h with
      | nothing | rejected => exact hbelow.elim
      | leaf hc hl => exact (hl.not_nullBelow hbelow).elim
      | @pointer _ rest _ p hc hv h =>
          rw [Part.type] at hbelow
          -- a pointer is made only if what it points to is not null
          split at hbelow
          · exact hbelow.elim
          · rename_i hnull
            have hrest : p.type.NullBelow := hbelow.resolve_left (by simpa using hnull)
            exact .pointer hc hv (ih _ (hn ▸ length_lt_of_codeAt hc) h hrest rfl)
      | @array _ rest it' _ ps closed hc hnum hloop hend =>
          cases closed with
          | false => exact hbelow.elim
          | true =>
              have hclosed : it'.head? = some ']' := hend.head?_eq.1.2 rfl
              rw [Part.type, if_pos rfl, Part.types_eq, List.getLast?_map] at hbelow
              cases hlast : ps.getLast? with
              | none =>
                  obtain rfl := List.getLast?_eq_none_iff.1 hlast
                  cases hloop
                  exact .empty hc hnum hclosed
              | some q =>
                  -- the subtype is the type read last
                  obtain ⟨it₁, hv, hq⟩ :=
                    hloop.exists_last_visit (fun _ _ _ h => h.process_snd) hlast
                  have hclose : (process it₁).2.head? = some ']' := hq.process_snd.symm ▸ hclosed
                  have hcall : Calls it it₁ := .array hc hnum hv
                  rw [hlast] at hbelow
                  rcases hbelow with hnull | hbelow
                  · refine .barren hc hnum hv (barrenAt_iff.2 ⟨?_, hclose⟩)
                    rw [hq.process_eq]
                    exact hnull
                  · exact .array hc hnum hv hclose (ih _ (hn ▸ hcall.length_lt) hq hbelow rfl)
      | @aggregate _ _ _ _ tag fs closed hc ho hloop hend =>
          cases closed with
          | false => exact hbelow.elim
          | true => exact (tag.not_nullBelow _ _ hbelow).elim

/-- What `process` reads leads to null exactly where it ends in an array without an element
type. -/
lemma hollowAt_iff : HollowAt it ↔ (process it).1.NullBelow := by
  constructor
  · intro h
    induction h with
    | empty hc hnum h =>
        rw [process_of_codeAt hc, processCode_array, processArray_empty hnum h]
        exact Or.inl rfl
    | barren hc hnum hv h =>
        obtain ⟨hnull, hclose⟩ := barrenAt_iff.1 h
        rw [process_of_codeAt hc, processCode_array, processArray_last hnum hv hclose]
        exact Or.inl hnull
    | array hc hnum hv hclose h ih =>
        rw [process_of_codeAt hc, processCode_array, processArray_last hnum hv hclose]
        exact Or.inr ih
    | pointer hc hv h ih =>
        rw [process_of_codeAt hc, processCode_pointer, processPointer_of_ne hv,
          if_neg (by simpa using ih.ne_null)]
        exact Or.inr ih
  · intro hbelow
    obtain ⟨p, rest, h⟩ := exists_reads it
    rw [h.process_eq] at hbelow
    exact h.hollowAt hbelow

/-- Some type decoded from the string leads to null exactly when the string is hollow. -/
lemma hollow_iff {w : Str} : Hollow w ↔ ∃ t ∈ decodeType w, t.NullBelow := by
  constructor
  · rintro ⟨it, hv, h⟩
    have hbelow : (decodeStep it).1.NullBelow := hollowAt_iff.1 h
    have hmem := (Reader.mem_repeatUntil_iff rfl decodeStep_advances).2 ⟨it, hv, rfl⟩
    exact ⟨_, List.mem_filter.2 ⟨hmem, by simpa using hbelow.ne_null⟩, hbelow⟩
  · rintro ⟨t, ht, hbelow⟩
    obtain ⟨it, hv, rfl⟩ := (Reader.mem_repeatUntil_iff rfl decodeStep_advances).1
      (List.mem_filter.1 ht).1
    exact ⟨it, hv, hollowAt_iff.2 hbelow⟩

end ICDump
