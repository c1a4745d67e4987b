/-
Declarations of classes (`ASTGen::decl_class`, `ClangAST::generate`).

The methods, the instance variables and the properties of a class are declared one after the
other, each in the context that the ones before it were added to.  The names of the protocols of a
class are declared, but not added.  `generate` does this in a translation unit of its own.
-/
import ICDump.ClangAST.NullSafety
import ICDump.ObjC.Parser

namespace ICDump

namespace ASTGen

/-- `ObjCPropertyDecl`. -/
structure PropertyDecl where
  decl : NamedDecl
  type : QualType
deriving DecidableEq, Repr

/-- `ObjCInterfaceDecl`, with what `decl_class` makes for it. -/
structure InterfaceDecl where
  decl : NamedDecl
  protocols : List NamedDecl
  methods : List MethodDecl
  ivars : List IvarDecl
  properties : List PropertyDecl
deriving DecidableEq, Repr

/-- `ASTGen::decl_property`: the declaration, and the context with it. -/
def declProperty (prop : Property) (dc : DeclContext) : ASTGen (PropertyDecl × DeclContext) := do
  let decl ← create .property prop.name
  return (⟨decl, .builtin .void⟩, dc.addDecl decl)

/-- The loop of `decl_class` on the protocols, which are not added to the class. -/
def declProtocolNames : List Protocol → ASTGen (List NamedDecl)
  | [] => return []
  | proto :: protocols => do
    let decl ← create .protocol proto.mangledName
    let decls ← declProtocolNames protocols
    return decl :: decls

/-- A loop of `decl_class`: `decl` declares each object of a list in the context that the ones
before it were added to. -/
def declEach {α δ : Type} (decl : α → DeclContext → ASTGen (δ × DeclContext)) :
    List α → DeclContext → ASTGen (List δ × DeclContext)
  | [], dc => return ([], dc)
  | x :: xs, dc => do
    let (d, dc) ← decl x dc
    let (ds, dc) ← declEach decl xs dc
    return (d :: ds, dc)

/-- `ASTGen::decl_class`: the declaration, and the context with it.  The name of the class is
demangled by a function of the Swift library. -/
def declClass (demangle : Str → Str) (cls : Class Protocol) (dc : DeclContext) :
    ASTGen (InterfaceDecl × DeclContext) := do
  let clsDecl ← create .interface (demangle cls.name)
  let protocols ← declProtocolNames cls.protocols
  let (methods, inside) ← declEach declMethod cls.methods (dc.inner clsDecl)
  let (ivars, inside) ← declEach declIvar cls.ivars inside
  let (properties, _) ← declEach declProperty cls.properties inside
  return (⟨clsDecl, protocols, methods, ivars, properties⟩, dc.addDecl clsDecl)

/-- `ClangAST::generate` of a class, without the printing. -/
def generate (demangle : Str → Str) (cls : Class Protocol) : ASTGen InterfaceDecl := do
  let unit ← create .translationUnit []
  let (decl, _) ← declClass demangle cls ⟨unit, [[]]⟩
  return decl

variable {α δ : Type}

section

variable {decl : α → DeclContext → ASTGen (δ × DeclContext)} {x : α} {xs : List α}
  {dc dc' : DeclContext} {ds : List δ} {n n' : ℕ}

lemma declEach_nil_eq_ok (h : declEach decl [] dc n = .ok ((ds, dc'), n')) :
    ds = [] ∧ dc' = dc := by
  obtain ⟨heq, -⟩ := pure_eq_ok.1 h
  obtain ⟨rfl, rfl⟩ := Prod.mk.inj heq
  exact ⟨rfl, rfl⟩

/-- The first object is declared, and the others in the context with it. -/
lemma declEach_cons_eq_ok (h : declEach decl (x :: xs) dc n = .ok ((ds, dc'), n')) :
    ∃ d ds' dc₁ n₁ n₂, decl x dc n = .ok ((d, dc₁), n₁) ∧
      declEach decl xs dc₁ n₁ = .ok ((ds', dc'), n₂) ∧ ds = d :: ds' := by
  obtain ⟨⟨d, dc₁⟩, n₁, hd, h⟩ := bind_eq_ok.1 h
  obtain ⟨⟨ds', dc₂⟩, n₂, hds, h⟩ := bind_eq_ok.1 h
  obtain ⟨heq, -⟩ := pure_eq_ok.1 h
  obtain ⟨rfl, rfl⟩ := Prod.mk.inj heq
  exact ⟨d, ds', dc₁, n₁, n₂, hd, hds, rfl⟩

end

/-! ### The types that are dereferenced -/

lemma safeIff_declEach {P : α → Prop} {decl : α → DeclContext → ASTGen (δ × DeclContext)}
    (h : ∀ x dc, SafeIff (P x) (decl x dc)) (xs : List α) (dc : DeclContext) :
    SafeIff (∀ x ∈ xs, P x) (declEach decl xs dc) := by
  induction xs generalizing dc with
  | nil => exact (safeIff_pure _).congr (by simp)
  | cons x xs ih =>
      have hcons := (h x dc).bind fun r => (ih r.2).bind_pure (f := fun rs => (r.1 :: rs.1, rs.2))
      exact hcons.congr List.forall_mem_cons.symm

lemma safeIff_declProtocolNames (protocols : List Protocol) :
    SafeIff True (declProtocolNames protocols) := by
  induction protocols with
  | nil => exact safeIff_pure _
  | cons proto protocols ih =>
      have hcons := (safeIff_create .protocol proto.mangledName).bind fun decl =>
        ih.bind_pure (f := fun decls => decl :: decls)
      exact hcons.congr (by simp)

lemma safeIff_declProperty (prop : Property) (dc : DeclContext) :
    SafeIff True (declProperty prop dc) :=
  (safeIff_create .property prop.name).bind_pure

/-- The type of every instance variable is one that can be built. -/
def IvarsSafe (ivars : List IVar) : Prop :=
  ∀ ivar ∈ ivars, (decodeType ivar.mangledType).length = 1 → ¬ Hollow ivar.mangledType

/-- The types of every method are ones that can be built. -/
def MethodsSafe (methods : List Method) : Prop :=
  ∀ meth ∈ methods, decodeType meth.mangledType ≠ [] ∧ ¬ Hollow meth.mangledType

lemma safeIff_declClass (demangle : Str → Str) (cls : Class Protocol) (dc : DeclContext) :
    SafeIff (MethodsSafe cls.methods ∧ IvarsSafe cls.ivars) (declClass demangle cls dc) := by
  have hsafe := (safeIff_create .interface (demangle cls.name)).bind fun clsDecl =>
    (safeIff_declProtocolNames cls.protocols).bind fun protocols =>
    (safeIff_declEach safeIff_declMethod cls.methods (dc.inner clsDecl)).bind fun r =>
    (safeIff_declEach safeIff_declIvar cls.ivars r.2).bind fun r₁ =>
    (safeIff_declEach safeIff_declProperty cls.properties r₁.2).bind_pure (f := fun r₂ =>
      ((⟨clsDecl, protocols, r.1, r₁.1, r₂.1⟩, dc.addDecl clsDecl) : InterfaceDecl × DeclContext))
  exact hsafe.congr (by simp [MethodsSafe, IvarsSafe])

lemma safeIff_generate (demangle : Str → Str) (cls : Class Protocol) :
    SafeIff (MethodsSafe cls.methods ∧ IvarsSafe cls.ivars) (generate demangle cls) := by
  have hsafe := (safeIff_create .translationUnit []).bind fun unit =>
    (safeIff_declClass demangle cls ⟨unit, [[]]⟩).bind_pure (f := fun r => r.1)
  exact hsafe.congr (by rw [true_and])

end ASTGen

end ICDump
