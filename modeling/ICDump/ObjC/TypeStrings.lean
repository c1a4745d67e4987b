/-
The types of methods and instance variables (`Method.cpp`, `IVar.cpp`).

Both decode a type string and count the types that come out.  `decode_type` drops what it cannot
decode, so the count says little about the string.  In a method signature, the types behind an
element that is dropped move up by one place (`Method.prototype_eq_iff`).  The string of an
instance variable with one type in it is one encoding only if nothing is skipped around the type,
or in it (`IVar.type_whole_iff`).
-/
import ICDump.Encoding.Whole
import ICDump.ObjC.Records

namespace ICDump

/-- `Method::prototype_t`. -/
structure Prototype where
  /-- The return type, which may be null. -/
  rtype : Ty
  params : List Ty

/-- `Method::prototype`. -/
def Method.prototype (meth : Method) : Prototype :=
  match decodeType meth.mangledType with
  | [] => ⟨.null, []⟩
  | t :: ts => ⟨t, ts⟩

/-- `IVar::type`, which may be null. -/
def IVar.type (ivar : IVar) : Ty :=
  if ivar.mangledType = [] then .null
  else
    match decodeType ivar.mangledType with
    | [t] => t
    | _ => .null

/-! ### Signatures -/

/-- `Signature s ts`: the string `s` consists of elements, each with the digits of an offset behind
it.  An element is an encoding that `process` reads exactly, and `ts` has its type, or a letter that
it rejects, and `ts` has null. -/
inductive Signature : Str → List Ty → Prop
  | nil : Signature [] []
  | type {e d s : Str} {t : Ty} {ts : List Ty} (hd : IsNumber d) (ht : t ≠ .null)
      (he : process (e ++ (d ++ s)) = (t, d ++ s)) (h : Signature s ts) :
      Signature (e ++ (d ++ s)) (t :: ts)
  | rejected {c : Char} {d s : Str} {ts : List Ty} (hd : IsNumber d)
      (hc : ∀ it, process (c :: it) = (.null, it)) (h : Signature s ts) :
      Signature (c :: (d ++ s)) (.null :: ts)

variable {s d it : Str} {ts : List Ty} {t : Ty} {c : Char}

/-- A letter that is rejected is no qualifier. -/
lemma decodeStep_of_rejected (hc : ∀ it, process (c :: it) = (.null, it)) (it : Str) :
    decodeStep (c :: it) = (.null, it) := by
  have hspec : specifier c = .unknown := by
    by_contra hspec
    have hint := hc ['i']
    rw [process_specifier hspec (by simp; decide)] at hint
    exact absurd (congrArg Prod.fst hint) Ty.noConfusion
  rw [decodeStep, processSpecifier, if_pos hspec, hc]

/-- An offset is skipped. -/
lemma decodeStep_offset (hd : IsNumber d) (s : Str) : decodeStep (d ++ s) = process s := by
  obtain ⟨hne, hdigit⟩ := hd
  obtain ⟨c, d, rfl⟩ := List.exists_cons_of_ne_nil hne
  have hc := specifier_of_isDigit (hdigit c List.mem_cons_self)
  rw [decodeStep, List.cons_append, processSpecifier, if_pos hc, ← List.cons_append,
    process_digits hdigit]

/-- The loop of `decode_type`, once through a signature. -/
lemma Signature.step (h : Signature s (t :: ts)) : ∃ d s', IsNumber d ∧ Signature s' ts ∧
    process s = (t, d ++ s') ∧ decodeStep s = (t, d ++ s') := by
  cases h with
  | @type e d s' _ _ hd ht he h =>
      exact ⟨d, s', hd, h, he, by rw [decodeStep_eq (by rwa [he]), he]⟩
  | @rejected c d s' _ hd hc h => exact ⟨d, s', hd, h, hc _, decodeStep_of_rejected hc _⟩

/-- Behind an offset, the elements of a signature are decoded one by one. -/
lemma Signature.decodeType_offset (h : Signature s ts) (hd : IsNumber d) :
    decodeType (d ++ s) = ts.filter fun t => !t.isNull := by
  induction ts generalizing s d with
  | nil =>
      -- at the end, the offset alone makes one more null pointer
      cases h
      rw [decodeType_of_null (decodeStep_offset hd []), decodeType_nil, List.filter_nil]
  | cons t ts ih =>
      obtain ⟨d', s', hd', hs', hp, -⟩ := h.step
      rw [decodeType_step, decodeStep_offset hd, hp, ih hs' hd', ← List.filter_append,
        List.singleton_append]

lemma Signature.decodeType_eq (h : Signature s ts) :
    decodeType s = ts.filter fun t => !t.isNull := by
  cases ts with
  | nil =>
      cases h
      rfl
  | cons t ts =>
      obtain ⟨d, s', hd, hs', -, hp⟩ := h.step
      rw [decodeType_step, hp, hs'.decodeType_offset hd, ← List.filter_append,
        List.singleton_append]

/-! ### Prototypes -/

/-- **The prototype of a method has the elements of its signature at their places** when there is
only one, or when none is rejected. -/
theorem Method.prototype_eq_iff {meth : Method} {r : Ty} {ps : List Ty}
    (h : Signature meth.mangledType (r :: ps)) :
    meth.prototype = ⟨r, ps⟩ ↔ ps = [] ∨ ∀ t ∈ r :: ps, t ≠ .null := by
  rw [Method.prototype, h.decodeType_eq]
  constructor
  · intro heq
    refine or_iff_not_imp_left.2 fun hne t ht => ?_
    cases hts : (r :: ps).filter fun t => !t.isNull with
    | nil =>
        rw [hts, Prototype.mk.injEq] at heq
        exact absurd heq.2.symm hne
    | cons t' ts =>
        rw [hts, Prototype.mk.injEq] at heq
        have hall := List.filter_eq_self.1 (hts.trans (by rw [heq.1, heq.2]))
        simpa using hall t ht
  · rintro (rfl | hall)
    · cases hr : r.isNull with
      | false => simp [hr]
      | true => simp [Ty.isNull_iff.1 hr, Ty.isNull]
    · rw [List.filter_eq_self.2 fun t ht => by simpa using hall t ht]

/-- The elements `@0:8`, a bare object and a selector. -/
lemma signature_self : Signature ['@', '0', ':', '8'] [.object [], .selector] :=
  .type (e := ['@']) (d := ['0']) ⟨by simp, by simp [isDigit]⟩ Ty.noConfusion rfl
    (.type (e := [':']) (d := ['8']) ⟨by simp, by simp [isDigit]⟩ Ty.noConfusion rfl .nil)

theorem Method.prototype_eq_void :
    Method.prototype ⟨[], ['v', '1', '6', '@', '0', ':', '8'], 0, true⟩ =
      ⟨.primitive .void, [.object [], .selector]⟩ :=
  (Method.prototype_eq_iff (.type (e := ['v']) (d := ['1', '6']) ⟨by simp, by simp [isDigit]⟩
    Ty.noConfusion rfl signature_self)).2 (Or.inr (by simp))

/-- The return type of `D16@0:8` is rejected, and the first parameter takes its place. -/
theorem Method.prototype_shifted :
    Method.prototype ⟨[], ['D', '1', '6', '@', '0', ':', '8'], 0, true⟩ =
        ⟨.object [], [.selector]⟩ ∧
      ¬ ∀ (meth : Method) (r : Ty) (ps : List Ty), Signature meth.mangledType (r :: ps) →
        meth.prototype = ⟨r, ps⟩ := by
  have hproto : Method.prototype ⟨[], ['D', '1', '6', '@', '0', ':', '8'], 0, true⟩ =
      ⟨.object [], [.selector]⟩ := rfl
  refine ⟨hproto, fun h => ?_⟩
  have hsig : Signature ['D', '1', '6', '@', '0', ':', '8'] [.null, .object [], .selector] :=
    .rejected (d := ['1', '6']) ⟨by simp, by simp [isDigit]⟩ (fun it => process_code rfl rfl it)
      signature_self
  have heq := hproto.symm.trans (h _ _ _ hsig)
  exact absurd (congrArg Prototype.rtype heq) Ty.noConfusion

/-! ### Instance variables -/

lemma IVar.type_ne_null_iff {ivar : IVar} :
    ivar.type ≠ .null ↔ (decodeType ivar.mangledType).length = 1 := by
  have hne : ∀ t ∈ decodeType ivar.mangledType, t ≠ .null := fun t ht => by
    simpa using (List.mem_filter.1 ht).2
  rw [IVar.type]
  by_cases hnil : ivar.mangledType = []
  · rw [if_pos hnil, hnil]
    exact iff_of_false (fun h => h rfl) (by decide)
  · rw [if_neg hnil]
    match hts : decodeType ivar.mangledType with
    | [] => simp
    | [t] => simpa using hne t (by simp [hts])
    | _ :: _ :: _ => simp

/-- **The type of an instance variable is the whole string** exactly when nothing is skipped in the
string. -/
theorem IVar.type_whole_iff {ivar : IVar} (h : ivar.type ≠ .null) :
    Whole ivar.mangledType ↔ ¬ Skips ivar.mangledType :=
  whole_iff (IVar.type_ne_null_iff.1 h)

/-- In `ri`, a qualified int, nothing is skipped. -/
theorem IVar.type_whole_int : ¬ Skips ['r', 'i'] := by
  have hint : IsEncoding ['r', 'i'] := .qualified (by decide) (.primitive .int)
  have htype : IVar.type ⟨[], ['r', 'i']⟩ ≠ .null := Ty.noConfusion
  exact (IVar.type_whole_iff htype).1 ⟨['r', 'i'], [], hint, by simp, juxtaposable_nil _, rfl⟩

/-- The bracket of `}i` is skipped. -/
theorem IVar.type_skipping :
    IVar.type ⟨[], ['}', 'i']⟩ = .primitive .int ∧
      ¬ ∀ ivar : IVar, ivar.type ≠ .null → Whole ivar.mangledType := by
  have htype : IVar.type ⟨[], ['}', 'i']⟩ = .primitive .int := rfl
  refine ⟨htype, fun h => ?_⟩
  obtain ⟨w, d, hw, -, -, heq⟩ := h ⟨[], ['}', 'i']⟩ (htype ▸ Ty.noConfusion)
  -- no encoding starts with a closing bracket
  obtain ⟨c, w', rfl, -, hc⟩ := hw.exists_cons
  obtain ⟨rfl, -⟩ := List.cons.inj heq
  exact absurd (by decide) hc

end ICDump
