/-
No null type is dereferenced (`ASTGen.cpp`, `Method.cpp`, `IVar.cpp`).

The generator dereferences the return type of a method, its parameters, the type of an
instance variable, and everything that pointers and arrays lead to from there.  Only the
type of an instance variable is tested before.  `SafeIff P m` says that the computation `m`
dereferences a null type exactly when `P` fails; the rule for `>>=` carries it through the
generator.
-/
import ICDump.ClangAST.ASTGen
import ICDump.Encoding.EmptyArray

namespace ICDump

namespace ASTGen

variable {α β : Type} {m : ASTGen α} {P Q : Prop}

/-- No null type is dereferenced. -/
def NullSafe (m : ASTGen α) : Prop := ∀ n, m n ≠ .error .nullDereference

/-- No null type is dereferenced if `P` holds, and one is if not. -/
structure SafeIff (P : Prop) (m : ASTGen α) : Prop where
  safe : P → NullSafe m
  faults : ¬ P → ∀ n, m n = .error .nullDereference

lemma SafeIff.nullSafe_iff (h : SafeIff P m) : NullSafe m ↔ P := by
  refine ⟨fun hm => ?_, h.safe⟩
  by_contra hP
  exact hm 0 (h.faults hP 0)

lemma SafeIff.congr (h : SafeIff P m) (hPQ : P ↔ Q) : SafeIff Q m :=
  ⟨fun hQ => h.safe (hPQ.2 hQ), fun hQ => h.faults (mt hPQ.1 hQ)⟩

lemma safeIff_pure (a : α) : SafeIff True (pure a : ASTGen α) :=
  ⟨fun _ _ => nofun, fun h => absurd trivial h⟩

lemma safeIff_create (kind : DeclKind) (name : Str) : SafeIff True (create kind name) :=
  ⟨fun _ _ => nofun, fun h => absurd trivial h⟩

lemma safeIff_fault : SafeIff False (fault : ASTGen α) :=
  ⟨False.elim, fun _ _ => rfl⟩

/-- Two computations one after the other are safe when both are. -/
lemma SafeIff.bind {f : α → ASTGen β} (hm : SafeIff P m) (hf : ∀ a, SafeIff Q (f a)) :
    SafeIff (P ∧ Q) (m >>= f) := by
  have hrun : ∀ n, (m >>= f) n = m n >>= fun r => f r.1 r.2 := fun _ => rfl
  constructor
  · rintro ⟨hP, hQ⟩ n
    rw [hrun]
    cases h : m n with
    | error e => cases e; exact absurd h (hm.safe hP n)
    | ok r => exact (hf r.1).safe hQ r.2
  · intro h n
    rw [hrun]
    by_cases hP : P
    · cases hmn : m n with
      | error e => cases e; rfl
      | ok r => exact (hf r.1).faults (fun hQ => h ⟨hP, hQ⟩) r.2
    · rw [hm.faults hP n]
      rfl

/-- What follows a computation does not matter if it dereferences nothing. -/
lemma SafeIff.bind_pure {f : α → β} (hm : SafeIff P m) :
    SafeIff P (m >>= fun a => pure (f a)) :=
  (hm.bind fun _ => safeIff_pure _).congr (iff_of_eq (and_true P))

/-! ### The types that are dereferenced -/

lemma safeIff_getTagType (dc : DeclContext) (tag : TagKind) (name : Str) :
    SafeIff True (getTagType dc tag name) := by
  rw [getTagType]
  split
  · exact (safeIff_create _ _).bind_pure
  · split <;> exact safeIff_pure _
  · exact safeIff_pure _

lemma safeIff_getObjectType (dc : DeclContext) (name : Str) :
    SafeIff True (getObjectType dc name) := by
  rw [getObjectType]
  split
  · exact (safeIff_create _ _).bind_pure
  · split <;> exact safeIff_pure _
  · exact safeIff_pure _

lemma safeIff_nsObjectTy (dc : DeclContext) : SafeIff True (nsObjectTy dc) := by
  rw [nsObjectTy]
  split
  · exact (safeIff_create _ _).bind_pure
  · split <;> exact safeIff_pure _

/-- Neither the type is null nor what pointers and arrays lead to from it. -/
def Sound (t : Ty) : Prop := t ≠ .null ∧ ¬ t.NullBelow

lemma safeIff_getQType (dc : DeclContext) (t : Ty) : SafeIff (Sound t) (getQType dc t) := by
  induction t with
  | null => exact safeIff_fault.congr (by simp [Sound])
  | pointer t ih => exact ih.bind_pure.congr (by simp [Sound, Ty.NullBelow])
  | array dim t ih => exact ih.bind_pure.congr (by simp [Sound, Ty.NullBelow])
  | struct name as =>
      exact (safeIff_getTagType dc .struct name).congr (by simp [Sound, Ty.NullBelow])
  | union name as =>
      exact (safeIff_getTagType dc .union name).congr (by simp [Sound, Ty.NullBelow])
  | object name => exact (safeIff_getObjectType dc _).congr (by simp [Sound, Ty.NullBelow])
  | _ => exact (safeIff_pure _).congr (by simp [Sound, Ty.NullBelow])

lemma safeIff_declParam (dc inside : DeclContext) (i : ℕ) (p : Ty) :
    SafeIff (Sound p) (declParam dc inside i p) := by
  unfold declParam
  split
  · exact safeIff_fault.congr (by simp [Sound])
  · -- the first parameter, an object, has the type of the class if there is one
    split
    · exact (safeIff_pure _).congr (by simp [Sound, Ty.NullBelow])
    · exact (safeIff_getQType inside _).bind_pure
  · exact (safeIff_getQType inside _).bind_pure
  · exact (safeIff_getQType inside p).bind_pure

lemma safeIff_declParams (dc inside : DeclContext) (i : ℕ) (ps : List Ty) :
    SafeIff (∀ p ∈ ps, Sound p) (declParams dc inside i ps) := by
  induction ps generalizing i with
  | nil => exact (safeIff_pure _).congr (by simp)
  | cons p ps ih =>
      have hcons := (safeIff_declParam dc inside i p).bind fun param =>
        (ih (i + 1)).bind_pure (f := fun params => param :: params)
      exact hcons.congr List.forall_mem_cons.symm

lemma ne_null_of_mem_decodeType {w : Str} {t : Ty} (h : t ∈ decodeType w) : t ≠ .null := by
  simpa using (List.mem_filter.1 h).2

/-- The return type of a method and its parameters are the decoded types, the first of which
may be missing. -/
lemma sound_prototype_iff (meth : Method) :
    Sound meth.prototype.rtype ∧ (∀ p ∈ meth.prototype.params, Sound p) ↔
      decodeType meth.mangledType ≠ [] ∧ ¬ Hollow meth.mangledType := by
  have hne : ∀ t ∈ decodeType meth.mangledType, t ≠ .null := fun t => ne_null_of_mem_decodeType
  rw [hollow_iff, Method.prototype]
  cases hts : decodeType meth.mangledType with
  | nil => simp [Sound] -- the return type is null
  | cons t ts =>
      rw [hts] at hne
      rw [← List.forall_mem_cons, not_exists]
      constructor
      · exact fun h => ⟨List.cons_ne_nil t ts, fun t' ht' => (h t' ht'.1).2 ht'.2⟩
      · exact fun h t' ht' => ⟨hne t' ht', fun hbelow => h.2 t' ⟨ht', hbelow⟩⟩

lemma safeIff_declMethod (meth : Method) (dc : DeclContext) :
    SafeIff (decodeType meth.mangledType ≠ [] ∧ ¬ Hollow meth.mangledType)
      (declMethod meth dc) := by
  have hsafe := (safeIff_getQType dc meth.prototype.rtype).bind fun rtype =>
    (safeIff_create .method meth.name).bind fun decl =>
      (safeIff_declParams dc (dc.inner decl) 0 meth.prototype.params).bind_pure
        (f := fun params =>
          (⟨⟨decl, rtype, params, meth.isInstance⟩, dc.addDecl decl⟩ : MethodDecl × DeclContext))
  exact hsafe.congr (by rw [true_and, sound_prototype_iff])

/-- The type of an instance variable is null unless its string decodes to one type. -/
lemma ivar_type_cases (ivar : IVar) :
    decodeType ivar.mangledType = [ivar.type] ∨
      (decodeType ivar.mangledType).length ≠ 1 ∧ ivar.type = .null := by
  rw [IVar.type]
  split
  · rename_i hempty
    exact Or.inr (by rw [hempty]; exact ⟨by decide, rfl⟩)
  · cases decodeType ivar.mangledType with
    | nil => exact Or.inr ⟨by simp, rfl⟩
    | cons t ts =>
        cases ts with
        | nil => exact Or.inl rfl
        | cons t' ts => exact Or.inr ⟨by simp, rfl⟩

/-- What is no single type is not dereferenced. -/
lemma safeIff_ivarType (ivar : IVar) (dc : DeclContext) :
    SafeIff ((decodeType ivar.mangledType).length = 1 → ¬ Hollow ivar.mangledType)
      (ivarType ivar dc) := by
  rw [ivarType]
  split
  · rcases ivar_type_cases ivar with hone | ⟨hlen, hnull⟩
    · have hne : ivar.type ≠ .null := ne_null_of_mem_decodeType (hone ▸ List.mem_singleton_self _)
      rw [if_neg (by simpa using hne), hollow_iff, hone]
      exact (safeIff_getQType dc ivar.type).congr (by simp [Sound, hne])
    · -- the source tests for null here
      rw [if_pos (Ty.isNull_iff.2 hnull)]
      exact (safeIff_pure _).congr (iff_of_true trivial fun h => absurd h hlen)
  · rename_i hempty
    rw [not_not.1 hempty]
    exact (safeIff_nsObjectTy dc).bind_pure.congr
      (iff_of_true trivial fun h => absurd h (by decide))

lemma safeIff_declIvar (ivar : IVar) (dc : DeclContext) :
    SafeIff ((decodeType ivar.mangledType).length = 1 → ¬ Hollow ivar.mangledType)
      (declIvar ivar dc) := by
  have hsafe := (safeIff_ivarType ivar dc).bind fun type =>
    (safeIff_create .ivar ivar.name).bind_pure
      (f := fun decl => ((⟨decl, type⟩, dc.addDecl decl) : IvarDecl × DeclContext))
  exact hsafe.congr (by rw [and_true])

/-- **When no null type is dereferenced.**  The string of a method has to decode to something,
and no type that it starts may end in an array without an element type; for an instance variable
this last condition is enough, and only if its string decodes to one type. -/
theorem decl_nullSafe (meth : Method) (ivar : IVar) (dc : DeclContext) :
    (NullSafe (declMethod meth dc) ↔
      decodeType meth.mangledType ≠ [] ∧ ¬ Hollow meth.mangledType) ∧
    (NullSafe (declIvar ivar dc) ↔
      ((decodeType ivar.mangledType).length = 1 → ¬ Hollow ivar.mangledType)) :=
  ⟨(safeIff_declMethod meth dc).nullSafe_iff, (safeIff_declIvar ivar dc).nullSafe_iff⟩

/-- An image with an instance variable at `0x100`, whose encoding is the string `[4]` at `0x80`.
All other bytes are zero, so that the encoding of a method at `0x200` is empty. -/
def hollowBinary : Binary where
  imagebase := 0
  memoryBaseAddress := 0
  getSection _ _ := none
  segmentFromVirtualAddress v :=
    if v < 0x1000 then
      some
        { virtualAddress := 0, virtualSize := 0x1000, fileSize := 0x1000
          content := ⟨fun i =>
            if i = 0x80 then 0x5b else if i = 0x81 then 0x34 else if i = 0x82 then 0x5d
            else if i = 0x110 then 0x80 else 0, 0x1000⟩ }
    else none
  peekStringAt v := if v = 0x80 then some ['[', '4', ']'] else if v = 0 then some [] else none
  hostWord _ := 0

/-- Neither all methods that are read can be declared nor all instance variables. -/
theorem decl_hollow :
    ¬ (∀ (bin : Binary) (isSmall isInstance : Bool) (pos : UInt64) (meth : Method)
        (dc : DeclContext), (Method.createWith bin isSmall isInstance).value pos = some meth →
          NullSafe (declMethod meth dc)) ∧
      ¬ ∀ (bin : Binary) (pos : UInt64) (ivar : IVar) (dc : DeclContext),
        (IVar.create bin).value pos = some ivar → NullSafe (declIvar ivar dc) := by
  refine ⟨fun h => ?_, fun h => ?_⟩
  · exact h hollowBinary false true 0x200 ⟨[], [], 0, true⟩ ⟨⟨0, .interface, []⟩, []⟩ rfl 1 rfl
  · exact h hollowBinary 0x100 ⟨[], ['[', '4', ']']⟩ ⟨⟨0, .interface, []⟩, []⟩ rfl 1 rfl

end ASTGen

end ICDump
