/-
The generator is shared, the declarations are not (`ASTGen::get`, `Metadata::to_decl`).

All declarations are made by one generator, whose state is never reset.  A declaration only looks up
what was added in its own translation unit; so, from any state, the generator makes the same
declarations, with the identities moved (`shifts_generate`).  What is declared for a whole image is
what is declared for each protocol and class alone, by a new generator.
-/
import ICDump.ClangAST.Translation
import ICDump.Library.Supply

namespace ICDump

open Supply

/-! ### Moving identities -/

instance : Shift NamedDecl := ⟨fun k d => { d with id := d.id + k }⟩

/-- The type with the identities in it moved. -/
def QualType.moved (k : ℕ) : QualType → QualType
  | .null => .null
  | .builtin type => .builtin type
  | .pointer pointee => .pointer (pointee.moved k)
  | .const type => .const (type.moved k)
  | .constantArray element dim => .constantArray (element.moved k) dim
  | .record decl => .record (shift k decl)
  | .interface decl => .interface (shift k decl)

instance : Shift QualType := ⟨QualType.moved⟩

instance : Shift DeclContext := ⟨fun k dc => ⟨shift k dc.decl, shift k dc.scopes⟩⟩

namespace ASTGen

instance : Shift ParmVarDecl := ⟨fun k d => { d with type := shift k d.type }⟩

instance : Shift MethodDecl :=
  ⟨fun k d => ⟨shift k d.decl, shift k d.rtype, shift k d.params, d.isInstance⟩⟩

instance : Shift IvarDecl := ⟨fun k d => ⟨shift k d.decl, shift k d.type⟩⟩

instance : Shift PropertyDecl := ⟨fun k d => ⟨shift k d.decl, shift k d.type⟩⟩

instance : Shift InterfaceDecl :=
  ⟨fun k d => ⟨shift k d.decl, shift k d.protocols, shift k d.methods, shift k d.ivars,
    shift k d.properties⟩⟩

instance : Shift ImplementationControl := ⟨fun _ => id⟩

instance : Shift ProtocolDecl :=
  ⟨fun k d => ⟨shift k d.decl, shift k d.methods, shift k d.properties⟩⟩

variable {k : ℕ} {dc : DeclContext}

lemma shift_getPrimitiveType (k : ℕ) (p : Primitive) :
    shift k (getPrimitiveType p) = getPrimitiveType p := by
  cases p <;> rfl

/-- Names are not moved, so the same declarations are found. -/
lemma search_shift (k : ℕ) (name : Str) (scopes : List (List NamedDecl)) :
    search name (shift k scopes) = shift k (search name scopes) := by
  induction scopes with
  | nil => rfl
  | cons scope scopes ih =>
      have hlookup : lookup name (shift k scope) = shift k (lookup name scope) :=
        List.filter_map
      show search name (shift k scope :: shift k scopes) = _
      rw [search, search, hlookup]
      cases lookup name scope with
      | nil => exact ih
      | cons d ds => rfl

lemma shift_addDecl (k : ℕ) (dc : DeclContext) (d : NamedDecl) :
    (shift k dc).addDecl (shift k d) = shift k (dc.addDecl d) := by
  obtain ⟨decl, scopes⟩ := dc
  cases scopes with
  | nil => rfl
  | cons scope scopes =>
      show DeclContext.mk _ ((shift k scope ++ [shift k d]) :: shift k scopes) =
        DeclContext.mk _ (shift k (scope ++ [d]) :: shift k scopes)
      have happend : shift k (scope ++ [d]) = shift k scope ++ [shift k d] := List.map_append
      rw [happend]
      rfl

lemma shifts_create (kind : DeclKind) (name : Str) :
    Shifts k (create kind name) (create kind name) := by
  show Shifts k (draw fun n => NamedDecl.mk n kind name) (draw fun n => NamedDecl.mk n kind name)
  exact .draw fun _ => rfl

/-! ### The generator -/

lemma shifts_nsObjectTy (dc : DeclContext) :
    Shifts k (nsObjectTy dc) (nsObjectTy (shift k dc)) := by
  have hsearch := search_shift k nsObjectName dc.scopes
  rw [nsObjectTy, nsObjectTy, show (shift k dc).scopes = shift k dc.scopes from rfl, hsearch]
  cases search nsObjectName dc.scopes with
  | nil => exact (shifts_create _ _).bind fun decl => .pure (QualType.interface decl)
  | cons d ds =>
      show Shifts k (if d.kind = .interface then _ else _) (if d.kind = .interface then _ else _)
      split
      · exact .pure (QualType.interface d)
      · exact .pure (QualType.builtin .unknownAny)

lemma shifts_getTagType (dc : DeclContext) (tag : TagKind) (name : Str) :
    Shifts k (getTagType dc tag name) (getTagType (shift k dc) tag name) := by
  have hsearch := search_shift k (prettyStruct name) dc.scopes
  rw [getTagType, getTagType, show (shift k dc).scopes = shift k dc.scopes from rfl, hsearch]
  rcases search (prettyStruct name) dc.scopes with _ | ⟨d, _ | ⟨d', ds⟩⟩
  · exact (shifts_create _ _).bind fun record => .pure (QualType.record record)
  · show Shifts k (if d.isRecord then _ else _) (if d.isRecord then _ else _)
    split
    · exact .pure (QualType.record d)
    · exact .pure (QualType.pointer (.builtin .void))
  · exact .pure QualType.null

lemma shifts_getObjectType (dc : DeclContext) (name : Str) :
    Shifts k (getObjectType dc name) (getObjectType (shift k dc) name) := by
  have hsearch := search_shift k name dc.scopes
  rw [getObjectType, getObjectType, show (shift k dc).scopes = shift k dc.scopes from rfl, hsearch]
  rcases search name dc.scopes with _ | ⟨d, _ | ⟨d', ds⟩⟩
  · exact (shifts_create _ _).bind fun decl => .pure (QualType.pointer (.interface decl))
  · show Shifts k (if d.kind = .interface then _ else _) (if d.kind = .interface then _ else _)
    split
    · exact .pure (QualType.pointer (.interface d))
    · exact .pure (QualType.pointer (.builtin .void))
  · exact .pure (QualType.pointer (.builtin .void))

lemma shifts_getQType (dc : DeclContext) (t : Ty) :
    Shifts k (getQType dc t) (getQType (shift k dc) t) := by
  induction t with
  | null => exact .fail _
  | primitive p => exact .pure_of (shift_getPrimitiveType k p).symm
  | pointer t ih => exact ih.bind fun utype => .pure (QualType.pointer utype)
  | array dim t ih => exact ih.bind fun element => .pure (QualType.constantArray element dim)
  | struct name as => exact shifts_getTagType dc .struct name
  | union name as => exact shifts_getTagType dc .union name
  | object name => exact shifts_getObjectType dc _
  | selector => exact .pure (QualType.builtin .objCSel)
  | block => exact .pure (QualType.builtin .blockDescriptor)
  | cls => exact .pure (QualType.builtin .objCClass)
  | unknown => exact .pure (QualType.builtin .void)
  | bitField n => exact .pure (QualType.builtin .void)

lemma shifts_declParam (dc inside : DeclContext) (i : ℕ) (p : Ty) :
    Shifts k (declParam dc inside i p) (declParam (shift k dc) (shift k inside) i p) := by
  unfold declParam
  split
  · exact .fail _
  · show Shifts k (if dc.decl.kind = .interface then _ else _)
      (if dc.decl.kind = .interface then _ else _)
    split
    · exact .pure (ParmVarDecl.mk _ (.pointer (.interface dc.decl)))
    · exact (shifts_getQType inside _).bind fun qt => .pure (ParmVarDecl.mk _ qt)
  · exact (shifts_getQType inside _).bind fun qt => .pure (ParmVarDecl.mk _ qt)
  · exact (shifts_getQType inside _).bind fun qt => .pure (ParmVarDecl.mk _ qt)

lemma shifts_declParams (dc inside : DeclContext) (i : ℕ) (ps : List Ty) :
    Shifts k (declParams dc inside i ps) (declParams (shift k dc) (shift k inside) i ps) := by
  induction ps generalizing i with
  | nil => exact .pure ([] : List ParmVarDecl)
  | cons p ps ih =>
      exact (shifts_declParam dc inside i p).bind fun param =>
        (ih (i + 1)).bind fun params => .pure (param :: params)

lemma shifts_declMethod (meth : Method) (dc : DeclContext) :
    Shifts k (declMethod meth dc) (declMethod meth (shift k dc)) :=
  (shifts_getQType dc _).bind fun _ => (shifts_create .method meth.name).bind fun decl =>
    (shifts_declParams dc (dc.inner decl) 0 _).bind fun _ =>
      .pure_of (Prod.ext rfl (shift_addDecl k dc decl))

lemma shifts_ivarType (ivar : IVar) (dc : DeclContext) :
    Shifts k (ivarType ivar dc) (ivarType ivar (shift k dc)) := by
  rw [ivarType, ivarType]
  split
  · split
    · exact .pure (QualType.builtin .unknownAny)
    · exact shifts_getQType dc ivar.type
  · exact (shifts_nsObjectTy dc).bind fun type => .pure (QualType.pointer type)

lemma shifts_declIvar (ivar : IVar) (dc : DeclContext) :
    Shifts k (declIvar ivar dc) (declIvar ivar (shift k dc)) :=
  (shifts_ivarType ivar dc).bind fun _ => (shifts_create .ivar ivar.name).bind fun decl =>
    .pure_of (Prod.ext rfl (shift_addDecl k dc decl))

lemma shifts_declProperty (prop : Property) (dc : DeclContext) :
    Shifts k (declProperty prop dc) (declProperty prop (shift k dc)) :=
  (shifts_create .property prop.name).bind fun decl =>
    .pure_of (Prod.ext rfl (shift_addDecl k dc decl))

lemma shifts_declEach {α δ : Type} [Shift δ] {decl : α → DeclContext → ASTGen (δ × DeclContext)}
    (h : ∀ x dc, Shifts k (decl x dc) (decl x (shift k dc))) (xs : List α) (dc : DeclContext) :
    Shifts k (declEach decl xs dc) (declEach decl xs (shift k dc)) := by
  induction xs generalizing dc with
  | nil => exact .pure (([], dc) : List δ × DeclContext)
  | cons x xs ih => exact (h x dc).bind fun r => (ih r.2).bind fun rs => .pure (r.1 :: rs.1, rs.2)

lemma shifts_declProtocolNames (protocols : List Protocol) :
    Shifts k (declProtocolNames protocols) (declProtocolNames protocols) := by
  induction protocols with
  | nil => exact .pure ([] : List NamedDecl)
  | cons proto protocols ih =>
      exact (shifts_create _ _).bind fun decl => ih.bind fun decls => .pure (decl :: decls)

/-- **A class is declared in the same way from every state of the generator.** -/
lemma shifts_generate (demangle : Str → Str) (cls : Class Protocol) :
    Shifts k (generate demangle cls) (generate demangle cls) := by
  refine (shifts_create _ _).bind fun unit => Shifts.bind ?_ fun r => .pure r.1
  refine (shifts_create _ _).bind fun clsDecl => ?_
  refine (shifts_declProtocolNames _).bind fun protocols => ?_
  refine (shifts_declEach shifts_declMethod _ _).bind fun methods => ?_
  refine (shifts_declEach shifts_declIvar _ _).bind fun ivars => ?_
  refine (shifts_declEach shifts_declProperty _ _).bind fun properties => ?_
  exact .pure_of (Prod.ext rfl (shift_addDecl k ⟨unit, [[]]⟩ clsDecl))

/-- So is a protocol. -/
lemma shifts_generateProtocol (proto : Protocol) :
    Shifts k (generateProtocol proto) (generateProtocol proto) := by
  refine (shifts_create _ _).bind fun unit => Shifts.bind ?_ fun r => .pure r.1
  refine (shifts_create _ _).bind fun protocolDecl => ?_
  refine (shifts_declEach shifts_declMethod _ _).bind fun optMethods => ?_
  refine (shifts_declEach shifts_declMethod _ _).bind fun requiredMethods => ?_
  refine (shifts_declEach shifts_declProperty _ _).bind fun properties => ?_
  refine .pure_of (Prod.ext ?_ (shift_addDecl k ⟨unit, [[]]⟩ protocolDecl))
  have hmethods : ∀ (control : ImplementationControl) (ds : List MethodDecl),
      (shift k ds).map (control, ·) = shift k (ds.map (control, ·)) := by
    intro control ds
    show (ds.map (shift k)).map _ = (ds.map _).map (shift k)
    rw [List.map_map, List.map_map]
    rfl
  have happend : ∀ ds ds' : List (ImplementationControl × MethodDecl),
      shift k ds ++ shift k ds' = shift k (ds ++ ds') := fun _ _ => List.map_append.symm
  show ProtocolDecl.mk _ (_ ++ _) _ = ProtocolDecl.mk _ (shift k (_ ++ _)) _
  rw [hmethods, hmethods, happend]

/-! ### Whole images -/

/-- The declarations of one run after another are those of runs of their own, moved. -/
lemma generateEach_independent {α δ : Type} [Shift δ] {generate : α → ASTGen δ}
    (h : ∀ x k, Shifts k (generate x) (generate x)) {xs : List α} {ds : List δ} {n n' : ℕ}
    (hrun : generateEach generate xs n = .ok (ds, n')) :
    List.Forall₂ (fun x d => ∃ k d₀ n₀, generate x 0 = .ok (d₀, n₀) ∧ d = shift k d₀) xs ds := by
  induction xs generalizing n n' ds with
  | nil =>
      obtain ⟨rfl, -⟩ := pure_eq_ok.1 hrun
      exact .nil
  | cons x xs ih =>
      obtain ⟨d, n₁, hd, hrun⟩ := bind_eq_ok.1 hrun
      obtain ⟨ds', n₂, hds, hrun⟩ := bind_eq_ok.1 hrun
      obtain ⟨rfl, -⟩ := pure_eq_ok.1 hrun
      refine .cons ?_ (ih hds)
      have hshift := h x n 0
      rw [Nat.zero_add, hd] at hshift
      cases hzero : generate x 0 with
      | error e =>
          rw [hzero] at hshift
          cases hshift
      | ok r =>
          rw [hzero] at hshift
          obtain ⟨rfl, -⟩ := Prod.mk.inj (Except.ok.inj hshift)
          exact ⟨n, r.1, r.2, rfl, rfl⟩

/-- **What is declared for a whole image does not depend on the order in which it is declared**, nor
on what was declared before: every protocol and every class has the declaration that it has alone,
from a new generator, up to a translation of the identities in it. -/
theorem toDecl_independent {demangle : Str → Str} {store : Store} {classes : List (Class Protocol)}
    (hclasses : store.classValues = classes.map (Class.map some)) {n n' : ℕ}
    {ds : List ProtocolDecl × List InterfaceDecl} (hrun : toDecl demangle store n = .ok (ds, n')) :
    List.Forall₂ (fun proto d => ∃ k d₀ n₀, generateProtocol proto 0 = .ok (d₀, n₀) ∧
        d = shift k d₀) store.protocolValues ds.1 ∧
      List.Forall₂ (fun cls d => ∃ k d₀ n₀, generate demangle cls 0 = .ok (d₀, n₀) ∧
        d = shift k d₀) classes ds.2 := by
  obtain ⟨protocols, n₁, hprotocols, hrun⟩ := bind_eq_ok.1 hrun
  obtain ⟨interfaces, n₂, hinterfaces, hrun⟩ := bind_eq_ok.1 hrun
  obtain ⟨rfl, -⟩ := pure_eq_ok.1 hrun
  rw [hclasses, generateEach_map] at hinterfaces
  simp only [generatePointing_map_some] at hinterfaces
  exact ⟨generateEach_independent (fun proto _ => shifts_generateProtocol proto) hprotocols,
    generateEach_independent (fun cls _ => shifts_generate demangle cls) hinterfaces⟩

/-- The class of the image is declared as it is alone, after its protocol. -/
theorem toDecl_independent_adopting : ∃ ds n', toDecl id adoptingStore 7 = .ok (ds, n') ∧
    List.Forall₂ (fun cls d => ∃ k d₀ n₀, generate id cls 0 = .ok (d₀, n₀) ∧ d = shift k d₀)
      [adoptingClass] ds.2 :=
  ⟨_, _, rfl, (toDecl_independent (show adoptingStore.classValues =
    [adoptingClass].map (Class.map some) from rfl) rfl).2⟩

end ASTGen

end ICDump
