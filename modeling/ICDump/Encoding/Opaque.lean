/-
Opaque structures against opaque unions.

An opaque structure is read up to its bracket.  An opaque union is not: its name contains the
bracket, or there is no `=` in the rest of the string and nothing is decoded any more.  So the
law that structures and unions are decoded alike breaks where the decoder meets one of the
two as a type of the signature, or behind pointers of such a type.  Inside an array or
another structure it may not show, since what was read can be thrown away.
-/
import ICDump.Encoding.Swap
import Mathlib.Data.List.TakeWhile

namespace ICDump

/-- `process`, called at `it`, finds an opaque structure or union, perhaps behind pointers. -/
inductive OpaqueBehind : Str → Prop
  | here {it : Str} (h : OpaqueAt it) : OpaqueBehind it
  | pointer {it rest : Str} (hc : codeAt it = '^' :: rest) (hv : rest.head? ≠ some '?')
      (h : OpaqueBehind rest) : OpaqueBehind it

/-- The first opaque structure or union that decoding meets is a type of the signature, or is
behind pointers of one. -/
inductive OpaqueFirst : Str → Prop
  | here {w : Str} (hw : w ≠ []) (h : OpaqueBehind (processSpecifier w).2) : OpaqueFirst w
  | next {w : Str} (hw : w ≠ [])
      (hs : ∀ it, Relation.ReflTransGen Calls (processSpecifier w).2 it → ¬ OpaqueAt it)
      (h : OpaqueFirst (decodeStep w).2) : OpaqueFirst w

/-! ### Where the two parsers part -/

/-- The result `p`, and the result `q` for the string with its brackets exchanged, show: one is
null at the end of the string while the other is not null, or their trees do not correspond. -/
def Clash (p q : Ty × Str) : Prop :=
  (p.1 = .null ∧ p.2 = [] ∧ q.1 ≠ .null) ∨ (q.1 = .null ∧ q.2 = [] ∧ p.1 ≠ .null) ∨
    (p.1 ≠ .null ∧ q.1 ≠ .null ∧ q.1 ≠ p.1.swapTree)

/-- The name of an opaque structure ends before the bracket. -/
lemma processStructure_opaqueName {it : Str} (h : OpaqueName '}' it) :
    ∃ n, (processStructure process it).1 = .struct n [] ∧ '}' ∉ n := by
  have hopen : ((skipChar '?' it).dropWhile fun c => c != '=' && c != '}').head? = some '}' := h
  refine ⟨(skipChar '?' it).takeWhile fun c => c != '=' && c != '}', ?_, fun hmem => ?_⟩
  · simp only [processStructure, if_pos hopen]
  · exact absurd (List.mem_takeWhile_imp hmem) (by simp)

/-- A letter in front of which there is no `=` belongs to the name of a union. -/
lemma mem_takeWhile_of_dropWhile {delim : Char} {it : Str} (hd : delim ≠ '=')
    (h : (it.dropWhile fun c => c != '=' && c != delim).head? = some delim) :
    delim ∈ it.takeWhile (· != '=') := by
  induction it with
  | nil => exact absurd h (by simp)
  | cons c it ih =>
      by_cases hc : c = delim
      · subst hc
        simp [hd]
      · by_cases heq : c = '='
        · subst heq
          exact absurd h (by simpa using hc)
        · have hit : (it.dropWhile fun c => c != '=' && c != delim).head? = some delim := by
            simpa [hc, heq] using h
          rw [List.takeWhile_cons_of_pos (by simpa using heq)]
          exact List.mem_cons_of_mem c (ih hit)

/-- The name of an opaque union goes past it. -/
lemma processUnion_opaqueName {it : Str} (h : OpaqueName ')' it) :
    (processUnion process it).1 = .null ∧ (processUnion process it).2 = [] ∨
      ∃ n as, (processUnion process it).1 = .union n as ∧ ')' ∈ n := by
  have hmem : ')' ∈ (skipChar '?' it).takeWhile (· != '=') :=
    mem_takeWhile_of_dropWhile (by decide) h
  by_cases hnull : (processUnion process it).1 = .null
  · exact Or.inl ⟨hnull, processAttrs_null (fun _ => Ty.noConfusion) hnull⟩
  · rcases processAttrs_cases process ')' (.union ((skipChar '?' it).takeWhile (· != '=')))
      (bodyAt it) with hn | ⟨as, has⟩
    · exact absurd hn hnull
    · exact Or.inr ⟨_, as, has, hmem⟩

/-- A name with a bracket in it is not the image of one without the other bracket. -/
lemma ne_swap_of_mem {d : Char} {n n' : Str} (h : d ∉ n) (h' : swapChar d ∈ n') :
    n' ≠ swap n := by
  rintro rfl
  obtain ⟨c, hc, hcd⟩ := List.mem_map.1 h'
  exact h (swapChar_inj.1 hcd ▸ hc)

/-- An opaque structure on one side is an opaque union on the other. -/
lemma clash_of_opaqueAt {it : Str} (h : OpaqueAt it) : Clash (process it) (process (swap it)) := by
  obtain ⟨rest, ⟨hc, hname⟩ | ⟨hc, hname⟩⟩ := h
  · have hc' : codeAt (swap it) = '(' :: swap rest := by rw [codeAt_swap, hc]; rfl
    have hname' : OpaqueName ')' (swap rest) := (opaqueName_swap '}' rest).2 hname
    obtain ⟨n, hstruct, hn⟩ := processStructure_opaqueName hname
    rw [process_of_codeAt hc, process_of_codeAt hc', processCode_struct, processCode_union]
    rcases processUnion_opaqueName hname' with ⟨hnull, hend⟩ | ⟨n', as, hunion, hn'⟩
    · exact Or.inr (Or.inl ⟨hnull, hend, by rw [hstruct]; exact Ty.noConfusion⟩)
    · refine Or.inr (Or.inr ⟨by rw [hstruct]; exact Ty.noConfusion,
        by rw [hunion]; exact Ty.noConfusion, ?_⟩)
      rw [hstruct, hunion, Ty.swapTree, Ne, Ty.union.injEq]
      exact fun heq => ne_swap_of_mem (d := '}') hn hn' heq.1
  · have hc' : codeAt (swap it) = '{' :: swap rest := by rw [codeAt_swap, hc]; rfl
    have hname' : OpaqueName '}' (swap rest) := (opaqueName_swap ')' rest).2 hname
    obtain ⟨n, hstruct, hn⟩ := processStructure_opaqueName hname'
    rw [process_of_codeAt hc, process_of_codeAt hc', processCode_struct, processCode_union]
    rcases processUnion_opaqueName hname with ⟨hnull, hend⟩ | ⟨n', as, hunion, hn'⟩
    · exact Or.inl ⟨hnull, hend, by rw [hstruct]; exact Ty.noConfusion⟩
    · refine Or.inr (Or.inr ⟨by rw [hunion]; exact Ty.noConfusion,
        by rw [hstruct]; exact Ty.noConfusion, ?_⟩)
      rw [hstruct, hunion, Ty.swapTree, Ne, Ty.struct.injEq]
      exact fun heq => hn (heq.1 ▸ List.mem_map_of_mem (f := swapChar) hn')

/-- Pointers carry it on. -/
lemma clash_of_opaqueBehind {it : Str} (h : OpaqueBehind it) :
    Clash (process it) (process (swap it)) := by
  induction h with
  | here h => exact clash_of_opaqueAt h
  | @pointer it rest hc hv h ih =>
      have hc' : codeAt (swap it) = '^' :: swap rest := by rw [codeAt_swap, hc]; rfl
      have hv' : (swap rest).head? ≠ some '?' := mt (head?_swap rest '?').1 hv
      rw [process_of_codeAt hc, process_of_codeAt hc', processCode_pointer, processCode_pointer,
        processPointer_of_ne hv, processPointer_of_ne hv']
      rcases ih with ⟨hp, hend, hq⟩ | ⟨hq, hend, hp⟩ | ⟨hp, hq, hne⟩
      · exact Or.inl ⟨by simp [hp], hend, by simp [hq]⟩
      · exact Or.inr (Or.inl ⟨by simp [hq], hend, by simp [hp]⟩)
      · exact Or.inr (Or.inr ⟨by simp [hp], by simp [hq], by simp [hp, hq, hne, Ty.swapTree]⟩)

/-! ### Signatures -/

lemma not_opaqueAt_of_codeAt {c : Char} {it rest : Str} (h : codeAt it = c :: rest)
    (hs : c = '{' → ¬ OpaqueName '}' rest) (hu : c = '(' → ¬ OpaqueName ')' rest) :
    ¬ OpaqueAt it := by
  rintro ⟨rest', ⟨hc, ho⟩ | ⟨hc, ho⟩⟩
  · rw [h, List.cons.injEq] at hc
    exact hs hc.1 (hc.2 ▸ ho)
  · rw [h, List.cons.injEq] at hc
    exact hu hc.1 (hc.2 ▸ ho)

/-- The letter `i` calls nothing. -/
lemma not_calls_int {rest it : Str} : ¬ Calls ('i' :: rest) it := by
  have hcode : codeAt ('i' :: rest) = 'i' :: rest := rfl
  rintro (⟨hc, -⟩ | ⟨hc, -, -⟩ | ⟨hc, -, -⟩ | ⟨hc, -⟩)
  all_goals exact absurd (hcode.symm.trans hc) (by simp)

lemma decodeStep_swap (w : Str) :
    decodeStep (swap w) = process (swap (processSpecifier w).2) := by
  rw [decodeStep, processSpecifier_swap]
  rfl

/-- Without an opaque structure or union, the law holds. -/
lemma decodeType_swap_of_not_opaqueAt {w : Str} (h : ∀ it, Reaches w it → ¬ OpaqueAt it) :
    decodeType (swap w) = (decodeType w).map Ty.swapTree := by
  have hstep : ∀ it, Reader.Visits List.isEmpty decodeStep w it →
      decodeStep (swap it) = Prod.map Ty.swapTree swap (decodeStep it) := by
    intro it hv
    have hswap : SwapsAt (processSpecifier it).2 :=
      process_swap fun it' hcs => h it' ⟨it, hv, hcs⟩
    rw [decodeStep_swap, hswap]
    rfl
  have hloop := Reader.repeatUntil_map swapChar Ty.swapTree List.isEmpty_nil decodeStep_advances
    List.isEmpty_nil decodeStep_advances (fun it => List.isEmpty_map) w hstep
  rw [decodeType, swap, hloop, decodeType, Prod.map_fst, List.filter_map]
  refine congrArg _ (List.filter_congr fun t _ => ?_)
  rw [Function.comp, Ty.isNull_swapTree]

/-- Results that clash make the signatures differ, whatever comes after them. -/
lemma decodeType_swap_ne_of_clash {w : Str} (h : Clash (decodeStep w) (decodeStep (swap w))) :
    decodeType (swap w) ≠ (decodeType w).map Ty.swapTree := by
  rw [decodeType_step w, decodeType_step (swap w)]
  rcases h with ⟨hp, hend, hq⟩ | ⟨hq, hend, hp⟩ | ⟨hp, hq, hne⟩
  · simp [hp, hend, hq, decodeType_nil]
  · simp [hp, hend, hq, decodeType_nil]
  · simp [hp, hq, hne]

/-- Up to the first opaque structure or union the two signatures correspond, and there they
part. -/
lemma decodeType_swap_ne {w : Str} (h : OpaqueFirst w) :
    decodeType (swap w) ≠ (decodeType w).map Ty.swapTree := by
  induction h with
  | @here w hw h =>
      refine decodeType_swap_ne_of_clash ?_
      rw [decodeStep_swap]
      exact clash_of_opaqueBehind h
  | @next w hw hs h ih =>
      have hstep : decodeStep (swap w) = Prod.map Ty.swapTree swap (decodeStep w) := by
        rw [decodeStep_swap]
        exact process_swap hs
      rw [decodeType_step w, decodeType_step (swap w), hstep, List.map_append]
      intro heq
      have hhead : [(decodeStep w).1.swapTree].filter (fun t => !t.isNull) =
          ([(decodeStep w).1].filter fun t => !t.isNull).map Ty.swapTree := by
        rw [← List.map_singleton, List.filter_map]
        refine congrArg _ (List.filter_congr fun t _ => ?_)
        rw [Function.comp, Ty.isNull_swapTree]
      rw [Prod.map_fst, Prod.map_snd, hhead] at heq
      exact ih (List.append_cancel_left heq)

/-- **Structures and unions are decoded alike** in every string in which decoding meets no
opaque structure and no opaque union; and they are not if the first that it meets is a type of
the signature, or is behind pointers of one. -/
theorem decodeType_swap (w : Str) :
    ((∀ it, Reaches w it → ¬ OpaqueAt it) →
        decodeType (swap w) = (decodeType w).map Ty.swapTree) ∧
      (OpaqueFirst w → decodeType (swap w) ≠ (decodeType w).map Ty.swapTree) :=
  ⟨decodeType_swap_of_not_opaqueAt, decodeType_swap_ne⟩

theorem decodeType_swap_struct :
    decodeType ['(', 'P', '=', 'i', ')'] = [.union ['P'] [([], .primitive .int)]] := by
  have hcode : codeAt ['{', 'P', '=', 'i', '}'] = ['{', 'P', '=', 'i', '}'] := rfl
  refine ((decodeType_swap ['{', 'P', '=', 'i', '}']).1 ?_).trans rfl
  rintro it ⟨it', hv, hcs⟩
  obtain rfl : it' = ['{', 'P', '=', 'i', '}'] := by
    cases hv with
    | here => rfl
    | next _ hv => cases hv with
      | here hs | next hs => exact absurd hs (by decide)
  rcases hcs.cases_head with rfl | ⟨it', hcall, hcs⟩
  · exact not_opaqueAt_of_codeAt hcode (fun _ => by unfold OpaqueName; decide) (by simp)
  · obtain rfl : it' = ['i', '}'] := by
      rcases hcall with ⟨hc, -⟩ | ⟨hc, -, -⟩ | ⟨hc, -, hv⟩ | ⟨hc, -⟩
      · exact absurd (hcode.symm.trans hc) (by simp)
      · exact absurd (hcode.symm.trans hc) (by simp)
      · obtain rfl := (List.cons.inj (hcode.symm.trans hc)).2
        cases hv with
        | here => rfl
        | next _ hv => cases hv with
          | here hs | next hs => exact absurd hs (by decide)
      · exact absurd (hcode.symm.trans hc) (by simp)
    rcases hcs.cases_head with rfl | ⟨it', hcall, -⟩
    · exact not_opaqueAt_of_codeAt (rfl : codeAt ['i', '}'] = 'i' :: ['}']) (by simp) (by simp)
    · exact absurd hcall not_calls_int

/-- An opaque union is not read up to its bracket, and nothing is decoded after it. -/
theorem decodeType_opaque_union :
    ¬ ∀ w, decodeType (swap w) = (decodeType w).map Ty.swapTree := by
  intro h
  have hw : decodeType ['^', '(', 'U', ')', 'i'] =
      [.pointer (.union ['U'] []), .primitive .int] := h ['^', '{', 'U', '}', 'i']
  have hnone : decodeType ['^', '(', 'U', ')', 'i'] = [] := rfl
  rw [hnone] at hw
  exact absurd hw (by simp)

/-- Meeting an opaque structure need not show: here the union takes `U){V` for its name,
and what was read is overwritten. -/
example :
    decodeType (swap ['[', '2', '{', 'U', '}', 'i', '{', 'V', '=', '}', 'i', ']']) =
      (decodeType ['[', '2', '{', 'U', '}', 'i', '{', 'V', '=', '}', 'i', ']']).map
        Ty.swapTree := rfl

end ICDump
