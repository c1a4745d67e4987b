/-
Declarations of protocols and of whole images (`ASTGen::decl_protocol`, `Metadata::to_decl`).

The methods of a protocol are declared like those of a class, the optional ones first.  The
protocols of an image and then its classes are generated one after the other, each in a
translation unit of its own, by one generator; so only the identities are shared between them.
-/
import ICDump.ClangAST.ClassDecl
import ICDump.ObjC.Parse

namespace ICDump

namespace ASTGen

/-- `ObjCMethodDecl::ImplementationControl`. -/
inductive ImplementationControl
  | required | optional
deriving DecidableEq, Repr

/-- `ObjCProtocolDecl`, with what `decl_protocol` makes for it. -/
structure ProtocolDecl where
  decl : NamedDecl
  methods : List (ImplementationControl × MethodDecl)
  properties : List PropertyDecl
deriving DecidableEq, Repr

/-- `ASTGen::decl_protocol`: the declaration, and the context with it. -/
def declProtocol (proto : Protocol) (dc : DeclContext) : ASTGen (ProtocolDecl × DeclContext) := do
  let protocolDecl ← create .protocol proto.mangledName
  let (optMethods, inside) ← declEach declMethod proto.optMethods (dc.inner protocolDecl)
  let (requiredMethods, inside) ← declEach declMethod proto.requiredMethods inside
  let (properties, _) ← declEach declProperty proto.properties inside
  let methods := optMethods.map (ImplementationControl.optional, ·) ++
    requiredMethods.map (ImplementationControl.required, ·)
  return (⟨protocolDecl, methods, properties⟩, dc.addDecl protocolDecl)

/-- `ClangAST::generate` of a protocol, without the printing. -/
def generateProtocol (proto : Protocol) : ASTGen ProtocolDecl := do
  let unit ← create .translationUnit []
  let (decl, _) ← declProtocol proto ⟨unit, [[]]⟩
  return decl

/-- The loops of `Metadata::to_decl`. -/
def generateEach {α δ : Type} (generate : α → ASTGen δ) : List α → ASTGen (List δ)
  | [] => return []
  | x :: xs => do
    let d ← generate x
    let ds ← generateEach generate xs
    return d :: ds

/-- `Class::to_decl`, of a class that points to protocols of the store. -/
def generatePointing (demangle : Str → Str) (cls : Class (Option Protocol)) :
    ASTGen InterfaceDecl :=
  match cls.protocols.mapM id with
  | some protocols => generate demangle { cls with protocols := protocols }
  -- a pointer that points to nothing
  | none => fault

/-- `Metadata::to_decl`, without the printing. -/
def toDecl (demangle : Str → Str) (store : Store) :
    ASTGen (List ProtocolDecl × List InterfaceDecl) := do
  let protocols ← generateEach generateProtocol store.protocolValues
  let classes ← generateEach (generatePointing demangle) store.classValues
  return (protocols, classes)

/-! ### The types that are dereferenced -/

/-- The types of every method of a protocol are ones that can be built. -/
def ProtocolSafe (proto : Protocol) : Prop :=
  MethodsSafe proto.optMethods ∧ MethodsSafe proto.requiredMethods

lemma safeIff_declProtocol (proto : Protocol) (dc : DeclContext) :
    SafeIff (ProtocolSafe proto) (declProtocol proto dc) := by
  have hsafe := (safeIff_create .protocol proto.mangledName).bind fun protocolDecl =>
    (safeIff_declEach safeIff_declMethod proto.optMethods (dc.inner protocolDecl)).bind fun r =>
    (safeIff_declEach safeIff_declMethod proto.requiredMethods r.2).bind fun r₁ =>
    (safeIff_declEach safeIff_declProperty proto.properties r₁.2).bind_pure (f := fun r₂ =>
      ((⟨protocolDecl, r.1.map (ImplementationControl.optional, ·) ++
        r₁.1.map (ImplementationControl.required, ·), r₂.1⟩, dc.addDecl protocolDecl) :
          ProtocolDecl × DeclContext))
  exact hsafe.congr (by simp [ProtocolSafe, MethodsSafe])

lemma safeIff_generateProtocol (proto : Protocol) :
    SafeIff (ProtocolSafe proto) (generateProtocol proto) := by
  have hsafe := (safeIff_create .translationUnit []).bind fun unit =>
    (safeIff_declProtocol proto ⟨unit, [[]]⟩).bind_pure (f := fun r => r.1)
  exact hsafe.congr (by rw [true_and])

lemma safeIff_generateEach {α δ : Type} {P : α → Prop} {generate : α → ASTGen δ}
    (h : ∀ x, SafeIff (P x) (generate x)) (xs : List α) :
    SafeIff (∀ x ∈ xs, P x) (generateEach generate xs) := by
  induction xs with
  | nil => exact (safeIff_pure _).congr (by simp)
  | cons x xs ih =>
      have hcons := (h x).bind fun d => ih.bind_pure (f := fun ds => d :: ds)
      exact hcons.congr List.forall_mem_cons.symm

/-- The types of a class are ones that can be built, and its pointers lead to protocols. -/
def PointingSafe (cls : Class (Option Protocol)) : Prop :=
  (∀ o ∈ cls.protocols, o.isSome) ∧ MethodsSafe cls.methods ∧ IvarsSafe cls.ivars

lemma mapM_id_isSome_iff {α : Type} (l : List (Option α)) :
    (l.mapM id).isSome ↔ ∀ o ∈ l, o.isSome := by
  induction l with
  | nil => simp
  | cons o l ih =>
      cases o with
      | none => simp
      | some a =>
          rw [List.forall_mem_cons, ← ih, List.mapM_cons]
          cases l.mapM id <;> simp

lemma safeIff_generatePointing (demangle : Str → Str) (cls : Class (Option Protocol)) :
    SafeIff (PointingSafe cls) (generatePointing demangle cls) := by
  rw [generatePointing]
  cases hprotocols : cls.protocols.mapM id with
  | none =>
      refine safeIff_fault.congr (iff_of_false id fun h => ?_)
      have hsome := (mapM_id_isSome_iff _).2 h.1
      rw [hprotocols] at hsome
      exact absurd hsome (by simp)
  | some protocols =>
      have hsome : ∀ o ∈ cls.protocols, o.isSome :=
        (mapM_id_isSome_iff _).1 (by rw [hprotocols, Option.isSome_some])
      exact (safeIff_generate demangle _).congr (by rw [PointingSafe, and_iff_right hsome])

lemma safeIff_toDecl (demangle : Str → Str) (store : Store) :
    SafeIff ((∀ proto ∈ store.protocolValues, ProtocolSafe proto) ∧
      ∀ cls ∈ store.classValues, PointingSafe cls) (toDecl demangle store) :=
  (safeIff_generateEach safeIff_generateProtocol _).bind fun _ =>
    (safeIff_generateEach (safeIff_generatePointing demangle) _).bind_pure

end ASTGen

namespace ASTGen

end ASTGen

end ICDump
