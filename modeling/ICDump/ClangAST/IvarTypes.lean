/-
The types of instance variables (`ASTGen::decl_ivar`, `get_qtype`).

The type of an instance variable follows from its encoding, except that the structures, unions and
classes in it are looked up by name, in the context of the class first.  The instance variables
that were declared before are found there, under their own names.  An encoding leads to one name
at most (`lookedUp`), and its type is as in a class without other instance variables, up to the
identity of a declaration (`erase`), unless that name is found.
-/
import ICDump.ClangAST.ClassDecl

namespace ICDump

/-- The type without the identities of the declarations in it. -/
def QualType.erase : QualType → QualType
  | .null => .null
  | .builtin type => .builtin type
  | .pointer pointee => .pointer pointee.erase
  | .const type => .const type.erase
  | .constantArray element dim => .constantArray element.erase dim
  | .record decl => .record { decl with id := 0 }
  | .interface decl => .interface { decl with id := 0 }

namespace ASTGen

/-! ### What an encoding gives by itself -/

/-- The name that is looked up for a type. -/
def lookedUpName : Ty → Option Str
  | .pointer t => lookedUpName t
  | .array _ t => lookedUpName t
  | .struct name _ => some (prettyStruct name)
  | .union name _ => some (prettyStruct name)
  | .object name => some (if name = [] then nsObjectName else name)
  | _ => none

/-- The name that is looked up for an instance variable. -/
def lookedUp (ivar : IVar) : Option Str :=
  if ivar.mangledType = [] then some nsObjectName else lookedUpName ivar.type

/-- The type for which nothing is found. -/
def shapeOf : Ty → QualType
  | .null => .null
  | .primitive p => getPrimitiveType p
  | .selector => .builtin .objCSel
  | .block => .builtin .blockDescriptor
  | .cls => .builtin .objCClass
  | .pointer t => .pointer (shapeOf t)
  | .struct name _ => .record ⟨0, .record .struct, prettyStruct name⟩
  | .object name => .pointer (.interface ⟨0, .interface, if name = [] then nsObjectName else name⟩)
  | .array dim t => .constantArray (shapeOf t) dim
  | .union name _ => .record ⟨0, .record .union, prettyStruct name⟩
  | .unknown => .builtin .void
  | .bitField _ => .builtin .void

/-- The type of an instance variable for which nothing is found. -/
def shape (ivar : IVar) : QualType :=
  if ivar.mangledType = [] then .pointer (.interface ⟨0, .interface, nsObjectName⟩)
  else if ivar.type.isNull then .builtin .unknownAny
  else shapeOf ivar.type

lemma erase_getPrimitiveType (p : Primitive) :
    (getPrimitiveType p).erase = getPrimitiveType p := by
  cases p <;> rfl

/-! ### Looking up -/

variable {dc : DeclContext} {n n' : ℕ} {q : QualType}

/-- What is found in the context are instance variables. -/
def FindsIvars (dc : DeclContext) : Prop :=
  ∀ name, ∀ d ∈ search name dc.scopes, d.kind = .ivar

/-- The type of a structure or union is its own unless its name is found. -/
lemma erase_getTagType_iff (hdc : FindsIvars dc) {tag : TagKind} {name : Str}
    (h : getTagType dc tag name n = .ok (q, n')) :
    q.erase = .record ⟨0, .record tag, prettyStruct name⟩ ↔
      search (prettyStruct name) dc.scopes = [] := by
  have hfound := hdc (prettyStruct name)
  rcases hsearch : search (prettyStruct name) dc.scopes with _ | ⟨d, _ | ⟨d', ds⟩⟩
  · rw [getTagType, hsearch] at h
    obtain rfl := create_pure_eq_ok h
    exact iff_of_true rfl rfl
  · have hkind : d.kind = .ivar := hfound d (by simp [hsearch])
    rw [getTagType, hsearch] at h
    simp only [NamedDecl.isRecord, hkind] at h
    obtain ⟨rfl, -⟩ := pure_eq_ok.1 h
    exact iff_of_false (by simp [QualType.erase]) (by simp)
  · rw [getTagType, hsearch] at h
    obtain ⟨rfl, -⟩ := pure_eq_ok.1 h
    exact iff_of_false (by simp [QualType.erase]) (by simp)

/-- The type of an object is its own unless its name is found. -/
lemma erase_getObjectType_iff (hdc : FindsIvars dc) {name : Str}
    (h : getObjectType dc name n = .ok (q, n')) :
    q.erase = .pointer (.interface ⟨0, .interface, name⟩) ↔ search name dc.scopes = [] := by
  have hfound := hdc name
  rcases hsearch : search name dc.scopes with _ | ⟨d, _ | ⟨d', ds⟩⟩
  · rw [getObjectType, hsearch] at h
    obtain rfl := create_pure_eq_ok h
    exact iff_of_true rfl rfl
  · have hkind : d.kind ≠ .interface := by simp [hfound d (by simp [hsearch])]
    rw [getObjectType, hsearch] at h
    simp only [if_neg hkind] at h
    obtain ⟨rfl, -⟩ := pure_eq_ok.1 h
    exact iff_of_false (by simp [QualType.erase]) (by simp)
  · rw [getObjectType, hsearch] at h
    obtain ⟨rfl, -⟩ := pure_eq_ok.1 h
    exact iff_of_false (by simp [QualType.erase]) (by simp)

/-- So is the type `NSObject` of an empty encoding. -/
lemma erase_nsObjectTy_iff (hdc : FindsIvars dc) (h : nsObjectTy dc n = .ok (q, n')) :
    q.erase = .interface ⟨0, .interface, nsObjectName⟩ ↔ search nsObjectName dc.scopes = [] := by
  have hfound := hdc nsObjectName
  rcases hsearch : search nsObjectName dc.scopes with _ | ⟨d, ds⟩
  · rw [nsObjectTy, hsearch] at h
    obtain rfl := create_pure_eq_ok h
    exact iff_of_true rfl rfl
  · have hkind : d.kind ≠ .interface := by simp [hfound d (by simp [hsearch])]
    rw [nsObjectTy, hsearch] at h
    simp only [if_neg hkind] at h
    obtain ⟨rfl, -⟩ := pure_eq_ok.1 h
    exact iff_of_false (by simp [QualType.erase]) (by simp)

/-- Below pointers and arrays the same name is looked up, and the types differ if it is found. -/
lemma erase_getQType_iff (hdc : FindsIvars dc) {t : Ty} (h : getQType dc t n = .ok (q, n')) :
    q.erase = shapeOf t ↔ ∀ name, lookedUpName t = some name → search name dc.scopes = [] := by
  induction t generalizing q n' with
  | null => cases h
  | pointer t ih =>
      obtain ⟨utype, n₁, hutype, h⟩ := bind_eq_ok.1 h
      obtain ⟨rfl, -⟩ := pure_eq_ok.1 h
      rw [QualType.erase, shapeOf, QualType.pointer.injEq, lookedUpName]
      exact ih hutype
  | array dim t ih =>
      obtain ⟨element, n₁, helement, h⟩ := bind_eq_ok.1 h
      obtain ⟨rfl, -⟩ := pure_eq_ok.1 h
      rw [QualType.erase, shapeOf, QualType.constantArray.injEq, and_iff_left rfl, lookedUpName]
      exact ih helement
  | struct name as =>
      simp only [shapeOf, lookedUpName, Option.some.injEq, forall_eq']
      exact erase_getTagType_iff hdc h
  | union name as =>
      simp only [shapeOf, lookedUpName, Option.some.injEq, forall_eq']
      exact erase_getTagType_iff hdc h
  | object name =>
      simp only [shapeOf, lookedUpName, Option.some.injEq, forall_eq']
      exact erase_getObjectType_iff hdc h
  | primitive p =>
      obtain ⟨rfl, -⟩ := pure_eq_ok.1 h
      exact iff_of_true (erase_getPrimitiveType p) (by simp [lookedUpName])
  | _ =>
      obtain ⟨rfl, -⟩ := pure_eq_ok.1 h
      exact iff_of_true rfl (by simp [lookedUpName])

lemma erase_ivarType_iff (hdc : FindsIvars dc) {ivar : IVar}
    (h : ivarType ivar dc n = .ok (q, n')) :
    q.erase = shape ivar ↔ ∀ name, lookedUp ivar = some name → search name dc.scopes = [] := by
  rw [shape, lookedUp]
  by_cases hempty : ivar.mangledType = []
  · rw [ivarType, if_neg (not_not.2 hempty)] at h
    obtain ⟨type, n₁, htype, h⟩ := bind_eq_ok.1 h
    obtain ⟨rfl, -⟩ := pure_eq_ok.1 h
    rw [if_pos hempty, if_pos hempty, QualType.erase, QualType.pointer.injEq,
      erase_nsObjectTy_iff hdc htype]
    simp
  · rw [ivarType, if_pos hempty] at h
    rw [if_neg hempty, if_neg hempty]
    by_cases hnull : ivar.type.isNull
    · rw [if_pos hnull] at h ⊢
      obtain ⟨rfl, -⟩ := pure_eq_ok.1 h
      refine iff_of_true rfl ?_
      rw [Ty.isNull_iff.1 hnull]
      simp [lookedUpName]
    · rw [if_neg hnull] at h ⊢
      exact erase_getQType_iff hdc h

lemma shapeOf_ne_null {t : Ty} (h : t ≠ .null) : shapeOf t ≠ .null := by
  cases t with
  | null => exact absurd rfl h
  | primitive p => cases p <;> simp [shapeOf, getPrimitiveType]
  | _ => simp [shapeOf]

lemma shape_ne_null (ivar : IVar) : shape ivar ≠ .null := by
  rw [shape]
  split
  · simp
  · split
    · simp
    · rename_i hnull
      exact shapeOf_ne_null (mt Ty.isNull_iff.2 hnull)

/-- The shape is that of the encoding. -/
lemma shape_congr {ivar ivar' : IVar} (h : ivar.mangledType = ivar'.mangledType) :
    shape ivar = shape ivar' := by
  have htype : ivar.type = ivar'.type := by rw [IVar.type, IVar.type, h]
  rw [shape, shape, htype, h]

/-! ### The context of a class -/

/-- The context is that of a class in an empty translation unit, and apart from methods only the
instance variables of the given names were added to it. -/
def Holds (dc : DeclContext) (names : List Str) : Prop :=
  ∃ scope, dc.scopes = [scope, []] ∧ (∀ d ∈ scope, d.kind = .method ∨ d.kind = .ivar) ∧
    (scope.filter fun d => d.kind ≠ .method).map NamedDecl.name = names

variable {names : List Str}

lemma search_pair (name : Str) (scope : List NamedDecl) :
    search name [scope, []] = lookup name scope := by
  rw [search]
  split
  · rename_i hnone
    rw [hnone]
    rfl
  · rfl

lemma Holds.findsIvars (h : Holds dc names) : FindsIvars dc := by
  obtain ⟨scope, hscopes, hkinds, -⟩ := h
  intro name d hd
  rw [hscopes, search_pair, lookup, List.mem_filter] at hd
  have hvisible : d.kind ≠ .method ∧ d.name = name := by simpa using hd.2
  exact (hkinds d hd.1).resolve_left hvisible.1

/-- A name is found when it is that of an instance variable. -/
lemma Holds.search_eq_nil_iff (h : Holds dc names) (name : Str) :
    search name dc.scopes = [] ↔ name ∉ names := by
  obtain ⟨scope, hscopes, -, rfl⟩ := h
  rw [hscopes, search_pair, lookup, List.filter_eq_nil_iff]
  simp only [List.mem_map, List.mem_filter, decide_eq_true_eq, not_exists, not_and, and_imp]

lemma Holds.addMethod (h : Holds dc names) {d : NamedDecl} (hd : d.kind = .method) :
    Holds (dc.addDecl d) names := by
  obtain ⟨scope, hscopes, hkinds, rfl⟩ := h
  refine ⟨scope ++ [d], by rw [DeclContext.addDecl, hscopes], ?_, ?_⟩
  · rw [List.forall_mem_append]
    exact ⟨hkinds, by simp [hd]⟩
  · simp [List.filter_append, hd]

lemma Holds.addIvar (h : Holds dc names) {d : NamedDecl} (hd : d.kind = .ivar) :
    Holds (dc.addDecl d) (names ++ [d.name]) := by
  obtain ⟨scope, hscopes, hkinds, rfl⟩ := h
  refine ⟨scope ++ [d], by rw [DeclContext.addDecl, hscopes], ?_, ?_⟩
  · rw [List.forall_mem_append]
    exact ⟨hkinds, by simp [hd]⟩
  · simp [List.filter_append, hd]

lemma holds_inner (unit d : NamedDecl) : Holds (DeclContext.inner ⟨unit, [[]]⟩ d) [] :=
  ⟨[], rfl, by simp, rfl⟩

/-! ### The loops of `decl_class` -/

/-- Declaring methods adds methods. -/
lemma Holds.declMethods {methods : List Method} {ds : List MethodDecl} {dc' : DeclContext}
    (h : Holds dc names) (hrun : declEach declMethod methods dc n = .ok ((ds, dc'), n')) :
    Holds dc' names := by
  induction methods generalizing dc dc' n n' ds with
  | nil =>
      obtain ⟨-, rfl⟩ := declEach_nil_eq_ok hrun
      exact h
  | cons meth methods ih =>
      obtain ⟨d, ds', dc₁, n₁, n₂, hd, hds, -⟩ := declEach_cons_eq_ok hrun
      obtain ⟨hkind, rfl, -⟩ := declMethod_eq_ok hd
      exact ih (h.addMethod hkind) hds

/-- The types of the instance variables are those of their encodings when none of them looks up
the name of one that was declared before. -/
lemma Holds.declIvars {ivars : List IVar} {ds : List IvarDecl} {dc' : DeclContext}
    (h : Holds dc names) (hrun : declEach declIvar ivars dc n = .ok ((ds, dc'), n')) :
    List.Forall₂ (fun ivar d => d.type.erase = shape ivar) ivars ds ↔
      (∀ ivar ∈ ivars, ∀ name, lookedUp ivar = some name → name ∉ names) ∧
        ivars.Pairwise fun earlier later => lookedUp later ≠ some earlier.name := by
  induction ivars generalizing dc dc' n n' ds names with
  | nil =>
      obtain ⟨rfl, -⟩ := declEach_nil_eq_ok hrun
      simp
  | cons ivar ivars ih =>
      obtain ⟨d, ds', dc₁, n₁, n₂, hd, hds, rfl⟩ := declEach_cons_eq_ok hrun
      obtain ⟨hkind, hname, rfl, m, htype⟩ := declIvar_eq_ok hd
      have hcontext := h.addIvar hkind
      rw [hname] at hcontext
      have hshape : d.type.erase = shape ivar ↔
          ∀ name, lookedUp ivar = some name → name ∉ names := by
        rw [erase_ivarType_iff h.findsIvars htype]
        simp only [h.search_eq_nil_iff]
      have hlater : (∀ later ∈ ivars, ∀ name, lookedUp later = some name →
          name ∉ names ++ [ivar.name]) ↔
          (∀ later ∈ ivars, ∀ name, lookedUp later = some name → name ∉ names) ∧
            ∀ later ∈ ivars, lookedUp later ≠ some ivar.name := by
        simp only [List.mem_append, List.mem_singleton, not_or]
        constructor
        · exact fun hall => ⟨fun later hl name hname => (hall later hl name hname).1,
            fun later hl hname => (hall later hl _ hname).2 rfl⟩
        · rintro ⟨hold, hnew⟩ later hl name hname
          exact ⟨hold later hl name hname, fun heq => hnew later hl (heq ▸ hname)⟩
      rw [List.forall₂_cons, hshape, ih hcontext hds, hlater, List.forall_mem_cons,
        List.pairwise_cons]
      simp only [and_assoc]

/-- The same of a class that is generated. -/
lemma forall₂_shape_iff {demangle : Str → Str} {cls : Class Protocol} {d : InterfaceDecl}
    (hrun : generate demangle cls n = .ok (d, n')) :
    List.Forall₂ (fun ivar d => d.type.erase = shape ivar) cls.ivars d.ivars ↔
      cls.ivars.Pairwise fun earlier later => lookedUp later ≠ some earlier.name := by
  obtain ⟨unit, n₁, -, hrun⟩ := bind_eq_ok.1 hrun
  obtain ⟨⟨decl, dc⟩, n₂, hdecl, hrun⟩ := bind_eq_ok.1 hrun
  obtain ⟨rfl, -⟩ := pure_eq_ok.1 hrun
  obtain ⟨clsDecl, m₁, -, hdecl⟩ := bind_eq_ok.1 hdecl
  obtain ⟨protocols, m₂, -, hdecl⟩ := bind_eq_ok.1 hdecl
  obtain ⟨⟨methods, inside⟩, m₃, hmethods, hdecl⟩ := bind_eq_ok.1 hdecl
  obtain ⟨⟨ivars, inside'⟩, m₄, hivars, hdecl⟩ := bind_eq_ok.1 hdecl
  obtain ⟨⟨properties, inside''⟩, m₅, -, hdecl⟩ := bind_eq_ok.1 hdecl
  obtain ⟨heq, -⟩ := pure_eq_ok.1 hdecl
  obtain ⟨rfl, -⟩ := Prod.mk.inj heq
  have hinside := (holds_inner unit clsDecl).declMethods hmethods
  rw [hinside.declIvars hivars]
  simp

/-! ### Classes without other instance variables -/

/-- An instance variable with the encoding has the type in some class without others. -/
def AloneType (encoding : Str) (q : QualType) : Prop :=
  ∃ (demangle : Str → Str) (cls : Class Protocol) (ivar : IVar) (n : ℕ) (d : InterfaceDecl)
    (n' : ℕ), cls.ivars = [ivar] ∧ ivar.mangledType = encoding ∧
      generate demangle cls n = .ok (d, n') ∧ d.ivars.map IvarDecl.type = [q]

/-- The declared type is not null, and as in every class without other instance variables. -/
def OwnType (ivar : IVar) (d : IvarDecl) : Prop :=
  d.type ≠ .null ∧ ∀ q, AloneType ivar.mangledType q → d.type.erase = q.erase

/-- An instance variable without others is declared with the type of its encoding. -/
lemma ivars_of_singleton {demangle : Str → Str} {cls : Class Protocol} {ivar : IVar}
    {d : InterfaceDecl} (hivars : cls.ivars = [ivar])
    (hrun : generate demangle cls n = .ok (d, n')) :
    ∃ d', d.ivars = [d'] ∧ d'.type.erase = shape ivar := by
  have hshapes := (forall₂_shape_iff hrun).2 (by rw [hivars]; exact List.pairwise_singleton _ _)
  rw [hivars, List.forall₂_cons_left_iff] at hshapes
  obtain ⟨d', ds, hshape, hnil, hd⟩ := hshapes
  obtain rfl := List.forall₂_nil_left_iff.1 hnil
  exact ⟨d', hd, hshape⟩

/-- Without others, an instance variable has the type of its encoding. -/
lemma AloneType.erase_eq {ivar : IVar} (h : AloneType ivar.mangledType q) :
    q.erase = shape ivar := by
  obtain ⟨demangle, cls, ivar', n, d, n', hivars, hencoding, hrun, htypes⟩ := h
  obtain ⟨d', hd, hshape⟩ := ivars_of_singleton hivars hrun
  rw [hd] at htypes
  obtain rfl := List.singleton_inj.1 htypes
  rw [hshape, shape_congr hencoding]

/-- A class with one instance variable and nothing else. -/
def aloneClass (ivar : IVar) : Class Protocol where
  name := []
  flags := 0
  instanceStart := 0
  instanceSize := 0
  reserved := 0
  protocols := []
  methods := []
  ivars := [ivar]
  properties := []

/-- An instance variable whose type can be built has one in a class of its own. -/
lemma exists_aloneType {ivar : IVar}
    (h : (decodeType ivar.mangledType).length = 1 → ¬ Hollow ivar.mangledType) :
    ∃ q, AloneType ivar.mangledType q := by
  have hsafe := (safeIff_generate id (aloneClass ivar)).safe
    ⟨by simp [MethodsSafe, aloneClass], by simpa [IvarsSafe, aloneClass] using h⟩
  cases hrun : generate id (aloneClass ivar) 0 with
  | error e =>
      cases e
      exact absurd hrun (hsafe 0)
  | ok r =>
      obtain ⟨d, n'⟩ := r
      obtain ⟨d', hd, -⟩ := ivars_of_singleton rfl hrun
      exact ⟨d'.type, id, aloneClass ivar, ivar, 0, d, n', rfl, rfl, hrun, by rw [hd]; rfl⟩

lemma ownType_iff {ivar : IVar} {d : IvarDecl}
    (h : (decodeType ivar.mangledType).length = 1 → ¬ Hollow ivar.mangledType) :
    OwnType ivar d ↔ d.type.erase = shape ivar := by
  constructor
  · rintro ⟨-, hown⟩
    obtain ⟨q, hq⟩ := exists_aloneType h
    rw [hown q hq, hq.erase_eq]
  · intro hshape
    refine ⟨fun hnull => ?_, fun q hq => by rw [hshape, hq.erase_eq]⟩
    rw [hnull] at hshape
    exact shape_ne_null ivar hshape.symm

lemma forall₂_congr_of_mem {α β : Type} {R S : α → β → Prop} {l : List α} {m : List β}
    (h : ∀ a ∈ l, ∀ b, R a b ↔ S a b) : List.Forall₂ R l m ↔ List.Forall₂ S l m := by
  induction l generalizing m with
  | nil => rw [List.forall₂_nil_left_iff, List.forall₂_nil_left_iff]
  | cons a l ih =>
      rw [List.forall_mem_cons] at h
      rw [List.forall₂_cons_left_iff, List.forall₂_cons_left_iff]
      simp only [h.1, ih h.2]

/-- **The type of an instance variable is that of its encoding**, for all of those of a class,
exactly when none of them looks up the name of one that is declared before it. -/
theorem generate_ivars_iff {demangle : Str → Str} {cls : Class Protocol} {n n' : ℕ}
    {d : InterfaceDecl} (hrun : generate demangle cls n = .ok (d, n')) :
    List.Forall₂ OwnType cls.ivars d.ivars ↔
      cls.ivars.Pairwise fun earlier later => lookedUp later ≠ some earlier.name := by
  rw [← forall₂_shape_iff hrun]
  refine forall₂_congr_of_mem fun ivar hivar d' => ownType_iff ?_
  by_contra hunsafe
  have hfault := (safeIff_generate demangle cls).faults (fun h => hunsafe (h.2 ivar hivar)) n
  exact absurd (hrun.symm.trans hfault) (by simp)

/-- A class with a number `i` and a structure `S`. -/
def numberClass : Class Protocol :=
  { aloneClass ⟨[], []⟩ with
    ivars := [⟨['i'], ['i']⟩, ⟨['s'], ['{', 'S', '=', 'i', '}']⟩] }

/-- A class with a number `S` and a structure `S`. -/
def clashingClass : Class Protocol :=
  { aloneClass ⟨[], []⟩ with
    ivars := [⟨['S'], ['i']⟩, ⟨['s'], ['{', 'S', '=', 'i', '}']⟩] }

/-- Where the names are different, the types are those of the encodings. -/
theorem generate_ivars_number : ∃ d n', generate id numberClass 0 = .ok (d, n') ∧
    List.Forall₂ OwnType numberClass.ivars d.ivars := by
  refine ⟨_, _, rfl, (generate_ivars_iff rfl).2 ?_⟩
  exact List.pairwise_pair.2 (by decide)

/-- The structure `S` is a `void *` after a number of this name. -/
theorem generate_ivars_clash :
    ¬ ∀ (demangle : Str → Str) (cls : Class Protocol) (n : ℕ) (d : InterfaceDecl) (n' : ℕ),
      generate demangle cls n = .ok (d, n') → List.Forall₂ OwnType cls.ivars d.ivars := by
  intro h
  have hdecode : decodeType ['{', 'S', '=', 'i', '}'] =
      [.struct ['S'] [([], .primitive .int)]] := rfl
  have hsafe : (decodeType ['{', 'S', '=', 'i', '}']).length = 1 →
      ¬ Hollow ['{', 'S', '=', 'i', '}'] := by
    rw [hollow_iff, hdecode]
    simp [Ty.NullBelow]
  have hrun : generate id clashingClass 0 = .ok _ := rfl
  have hown := (List.forall₂_cons.1 (List.forall₂_cons.1 (h id clashingClass 0 _ _ hrun)).2).1
  exact absurd ((ownType_iff hsafe).1 hown) (by decide)

end ASTGen

end ICDump
