/-
From decoded types to Clang types (`ASTGen.cpp`).

Clang itself is reduced to what the code asks of it: declarations with an identity, a kind
and a name, contexts that declarations are added to, and the types that can be built.  A
new declaration is not found by name until it is added to a context.  A `Fault` is a null `Type`
that the code dereferences, or a `Protocol` that is gone.  What Clang does with a null `QualType`
is left out: a type that is built from one has it as a part.
-/
import ICDump.Encoding.Print
import ICDump.ObjC.TypeStrings

namespace ICDump

/-! ### Declarations and types -/

/-- `RecordDecl::TagKind`, as far as it is used. -/
inductive TagKind
  | struct | union
deriving DecidableEq, Repr

/-- The classes of declarations. -/
inductive DeclKind
  | record (tag : TagKind) | interface | protocol | method | ivar | property | translationUnit
deriving DecidableEq, Repr

/-- `clang::NamedDecl`. -/
structure NamedDecl where
  id : ℕ
  kind : DeclKind
  name : Str
deriving DecidableEq, Repr

/-- `isa<RecordDecl>`. -/
def NamedDecl.isRecord (d : NamedDecl) : Bool := d.kind = .record .struct ∨ d.kind = .record .union

/-- The types that the context `ctx` has. -/
inductive BuiltinTy
  | char | int | short | long | longLong
  | unsignedChar | unsignedInt | unsignedShort | unsignedLong | unsignedLongLong
  | float | double | bool | void | objCSel | objCClass | blockDescriptor | unknownAny
deriving DecidableEq, Repr

/-- `clang::QualType`.  The default value is `null`. -/
inductive QualType
  | null
  | builtin (type : BuiltinTy)
  | pointer (pointee : QualType)
  | const (type : QualType)
  | constantArray (element : QualType) (dim : ℕ)
  | record (decl : NamedDecl)
  | interface (decl : NamedDecl)
deriving DecidableEq, Repr

/-- `clang::DeclContext`: the declaration that it is, and the declarations added to it and to the
contexts around it, from the inside out. -/
structure DeclContext where
  decl : NamedDecl
  scopes : List (List NamedDecl)

namespace DeclContext

/-- `addDecl`. -/
def addDecl (dc : DeclContext) (d : NamedDecl) : DeclContext :=
  match dc.scopes with
  | [] => { dc with scopes := [[d]] }
  | scope :: scopes => { dc with scopes := (scope ++ [d]) :: scopes }

/-- A context inside this one, to which nothing was added. -/
def inner (dc : DeclContext) (d : NamedDecl) : DeclContext := ⟨d, [] :: dc.scopes⟩

end DeclContext

/-- `DeclContext::lookup` of an identifier.  Methods are found by selectors only. -/
def lookup (name : Str) (scope : List NamedDecl) : List NamedDecl :=
  scope.filter fun d => d.kind ≠ .method ∧ d.name = name

/-- `search`: the declarations of the innermost context that has any. -/
def search (name : Str) : List (List NamedDecl) → List NamedDecl
  | [] => []
  | scope :: scopes =>
      match lookup name scope with
      | [] => search name scopes
      | res => res

/-! ### Generation -/

/-- What the code does not guard against. -/
inductive Fault
  | nullDereference
deriving DecidableEq, Repr

/-- A computation that creates declarations.  The state is the next identity. -/
abbrev ASTGen (α : Type) : Type := StateT ℕ (Except Fault) α

namespace ASTGen

/-- `Create` of a class of declarations. -/
def create (kind : DeclKind) (name : Str) : ASTGen NamedDecl := fun n =>
  .ok (⟨n, kind, name⟩, n + 1)

/-- The null pointer is dereferenced. -/
def fault {α : Type} : ASTGen α := fun _ => .error .nullDereference

/-- The name `NSObject`. -/
def nsObjectName : Str := ['N', 'S', 'O', 'b', 'j', 'e', 'c', 't']

/-- `NSObjectTy`. -/
def nsObjectTy (dc : DeclContext) : ASTGen QualType :=
  match search nsObjectName dc.scopes with
  | [] => do
    let decl ← create .interface nsObjectName
    return .interface decl
  | d :: _ => if d.kind = .interface then return .interface d else return .builtin .unknownAny

/-- `pretty_struct`. -/
def prettyStruct (sname : Str) : Str :=
  if sname = "basic_string<char, std::__1::char_traits<char>, std::__1::allocator<char> >".toList
  then "std::string".toList else sname

/-- The cases `STRUCT` and `UNION` of `get_qtype`. -/
def getTagType (dc : DeclContext) (tag : TagKind) (name : Str) : ASTGen QualType :=
  match search (prettyStruct name) dc.scopes with
  | [] => do
    let record ← create (.record tag) (prettyStruct name)
    return .record record
  | [d] => if d.isRecord then return .record d else return .pointer (.builtin .void)
  -- several definitions: the type stays null
  | _ => return .null

/-- The case `OBJECT` of `get_qtype`, for a name that is not empty. -/
def getObjectType (dc : DeclContext) (name : Str) : ASTGen QualType :=
  match search name dc.scopes with
  | [] => do
    let decl ← create .interface name
    return .pointer (.interface decl)
  | [d] =>
    if d.kind = .interface then return .pointer (.interface d)
    else return .pointer (.builtin .void)
  | _ => return .pointer (.builtin .void)

/-- The cases of `get_qtype` for the primitive types. -/
def getPrimitiveType : Primitive → QualType
  | .char => .builtin .char
  | .int => .builtin .int
  | .short => .builtin .short
  | .long => .builtin .long
  | .longLong => .builtin .longLong
  | .unsignedChar => .builtin .unsignedChar
  | .unsignedInt => .builtin .unsignedInt
  | .unsignedShort => .builtin .unsignedShort
  | .unsignedLong => .builtin .unsignedLong
  | .unsignedLongLong => .builtin .unsignedLongLong
  | .float => .builtin .float
  | .double => .builtin .double
  | .bool => .builtin .bool
  | .void => .builtin .void
  | .cstring => .const (.pointer (.builtin .char))

/-- `get_qtype`, of the type that a pointer points to: the caller has dereferenced it.  The type of
a structure that several declarations are found for is a null `QualType`.  It is passed on below
pointers and arrays, where Clang's `getPointerType` and `getConstantArrayType` would dereference
it: this is no `Fault` here. -/
def getQType (dc : DeclContext) : Ty → ASTGen QualType
  | .null => fault
  | .primitive p => return getPrimitiveType p
  | .selector => return .builtin .objCSel
  | .block => return .builtin .blockDescriptor
  | .cls => return .builtin .objCClass
  | .pointer t => do
    let utype ← getQType dc t
    return .pointer utype
  | .struct name _ => getTagType dc .struct name
  | .object name => getObjectType dc (if name = [] then nsObjectName else name)
  | .array dim t => do
    let element ← getQType dc t
    return .constantArray element dim
  | .union name _ => getTagType dc .union name
  | .unknown => return .builtin .void
  | .bitField _ => return .builtin .void

/-- `ParmVarDecl`. -/
structure ParmVarDecl where
  name : Str
  type : QualType
deriving DecidableEq, Repr

/-- `"arg" + std::to_string(i)`. -/
def argName (i : ℕ) : Str := ['a', 'r', 'g'] ++ Nat.toDigits 10 i

/-- The body of the loop of `decl_method` on the parameters: `dc` is the context of the method,
`inside` the method itself. -/
def declParam (dc inside : DeclContext) (i : ℕ) (p : Ty) : ASTGen ParmVarDecl := do
  match p, i with
  | .null, _ => fault
  | .object name, 0 =>
    if dc.decl.kind = .interface then
      return ⟨['s', 'e', 'l', 'f'], .pointer (.interface dc.decl)⟩
    else
      let qt ← getQType inside (.object name)
      return ⟨['s', 'e', 'l', 'f'], qt⟩
  | .selector, _ =>
    let qt ← getQType inside .selector
    return ⟨['i', 'd'], qt⟩
  | p, i =>
    let qt ← getQType inside p
    return ⟨argName i, qt⟩

/-- The loop of `decl_method` on the parameters, from the index `i` on. -/
def declParams (dc inside : DeclContext) : ℕ → List Ty → ASTGen (List ParmVarDecl)
  | _, [] => return []
  | i, p :: ps => do
    let param ← declParam dc inside i p
    let params ← declParams dc inside (i + 1) ps
    return param :: params

/-- `ObjCMethodDecl`. -/
structure MethodDecl where
  decl : NamedDecl
  rtype : QualType
  params : List ParmVarDecl
  isInstance : Bool
deriving DecidableEq, Repr

/-- `ASTGen::decl_method`: the declaration, and the context with it. -/
def declMethod (meth : Method) (dc : DeclContext) : ASTGen (MethodDecl × DeclContext) := do
  -- the return type is dereferenced whether it was decoded or not
  let rtype ← getQType dc meth.prototype.rtype
  let decl ← create .method meth.name
  let params ← declParams dc (dc.inner decl) 0 meth.prototype.params
  return (⟨decl, rtype, params, meth.isInstance⟩, dc.addDecl decl)

/-- `ObjCIvarDecl`. -/
structure IvarDecl where
  decl : NamedDecl
  type : QualType
deriving DecidableEq, Repr

/-- The type that `decl_ivar` gives to an instance variable. -/
def ivarType (ivar : IVar) (dc : DeclContext) : ASTGen QualType :=
  if ivar.mangledType ≠ [] then
    if ivar.type.isNull then return .builtin .unknownAny
    else getQType dc ivar.type
  else do
    let type ← nsObjectTy dc
    return .pointer type

/-- `ASTGen::decl_ivar`: the declaration, and the context with it. -/
def declIvar (ivar : IVar) (dc : DeclContext) : ASTGen (IvarDecl × DeclContext) := do
  let type ← ivarType ivar dc
  let decl ← create .ivar ivar.name
  return (⟨decl, type⟩, dc.addDecl decl)

/-! ### Computations that succeed -/

variable {α β : Type} {m : ASTGen α} {n n' : ℕ}

lemma bind_eq_ok {f : α → ASTGen β} {b : β} :
    (m >>= f) n = .ok (b, n') ↔ ∃ a n₁, m n = .ok (a, n₁) ∧ f a n₁ = .ok (b, n') := by
  show (m n >>= fun r => f r.1 r.2) = _ ↔ _
  cases h : m n with
  | error e =>
      refine iff_of_false (by rintro ⟨⟩) ?_
      rintro ⟨a, n₁, ⟨⟩, -⟩
  | ok r =>
      constructor
      · exact fun hf => ⟨r.1, r.2, rfl, hf⟩
      · rintro ⟨a, n₁, hr, hf⟩
        obtain rfl := Except.ok.inj hr
        exact hf

lemma pure_eq_ok {a b : α} : (pure a : ASTGen α) n = .ok (b, n') ↔ a = b ∧ n = n' := by
  show Except.ok (a, n) = .ok (b, n') ↔ _
  rw [Except.ok.injEq, Prod.mk.injEq]

/-- A declaration that is created has the kind and the name that it is given. -/
lemma create_eq_ok {kind : DeclKind} {name : Str} {d : NamedDecl}
    (h : create kind name n = .ok (d, n')) : d = ⟨n, kind, name⟩ :=
  (Prod.mk.inj (Except.ok.inj h)).1.symm

/-- What is made of a new declaration. -/
lemma create_pure_eq_ok {kind : DeclKind} {name : Str} {f : NamedDecl → α} {a : α}
    (h : (create kind name >>= fun d => pure (f d)) n = .ok (a, n')) : a = f ⟨n, kind, name⟩ := by
  obtain ⟨d, n₁, hd, h⟩ := bind_eq_ok.1 h
  obtain ⟨rfl, -⟩ := pure_eq_ok.1 h
  rw [create_eq_ok hd]

variable {dc dc' : DeclContext}

/-- A method is added to the context, after its parameters have been declared. -/
lemma declMethod_eq_ok {meth : Method} {d : MethodDecl}
    (h : declMethod meth dc n = .ok ((d, dc'), n')) :
    d.decl.kind = .method ∧ dc' = dc.addDecl d.decl ∧
      ∃ m m', declParams dc (dc.inner d.decl) 0 meth.prototype.params m = .ok (d.params, m') := by
  obtain ⟨rtype, n₁, -, h⟩ := bind_eq_ok.1 h
  obtain ⟨decl, n₂, hdecl, h⟩ := bind_eq_ok.1 h
  obtain ⟨params, n₃, hparams, h⟩ := bind_eq_ok.1 h
  obtain ⟨heq, -⟩ := pure_eq_ok.1 h
  obtain ⟨rfl, rfl⟩ := Prod.mk.inj heq
  exact ⟨congrArg NamedDecl.kind (create_eq_ok hdecl), rfl, n₂, n₃, hparams⟩

/-- An instance variable is added to the context, after its type has been built. -/
lemma declIvar_eq_ok {ivar : IVar} {d : IvarDecl}
    (h : declIvar ivar dc n = .ok ((d, dc'), n')) :
    d.decl.kind = .ivar ∧ d.decl.name = ivar.name ∧ dc' = dc.addDecl d.decl ∧
      ∃ m, ivarType ivar dc n = .ok (d.type, m) := by
  obtain ⟨type, n₁, htype, h⟩ := bind_eq_ok.1 h
  obtain ⟨decl, n₂, hdecl, h⟩ := bind_eq_ok.1 h
  obtain ⟨heq, -⟩ := pure_eq_ok.1 h
  obtain ⟨rfl, rfl⟩ := Prod.mk.inj heq
  obtain rfl := create_eq_ok hdecl
  exact ⟨rfl, rfl, rfl, n₁, htype⟩

end ASTGen

end ICDump
