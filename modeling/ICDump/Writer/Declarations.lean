/-
From declarations to declarations.

A program is compiled: its protocols and classes, with the signatures of their methods, are laid out
in an image.  The image is parsed, the signatures are decoded, and everything is declared again.
The declarations have the names of the program, and the types of the trees that the signatures are
encodings of (`declare_declared`), up to the identities that the generator gives to them.  Of the
dimension of an array, only the last digit is left, as the decoder reads it.
-/
import ICDump.ClangAST.Translation
import ICDump.Writer.RoundTrip

namespace ICDump

open ASTGen

/-! ### What a program declares -/

section

variable (trees : Str → List Ty)

/-- A method of a class or a protocol.  The first tree of its signature is what it returns, the
others are its parameters. -/
def declaredMethod (container : NamedDecl) (meth : Method) : MethodDecl where
  decl := ⟨0, .method, meth.name⟩
  rtype := shapeOf ((trees meth.mangledType).headD .null)
  params := translateParams container 0 (trees meth.mangledType).tail
  isInstance := meth.isInstance

/-- An instance variable, whose encoding has one tree. -/
def declaredIvar (ivar : IVar) : IvarDecl :=
  ⟨⟨0, .ivar, ivar.name⟩, shapeOf ((trees ivar.mangledType).headD .null)⟩

/-- A protocol. -/
def declaredProtocol (proto : Protocol) : ProtocolDecl where
  decl := ⟨0, .protocol, proto.mangledName⟩
  methods :=
    (proto.optMethods.map fun meth =>
      (.optional, declaredMethod trees ⟨0, .protocol, proto.mangledName⟩ meth)) ++
    (proto.requiredMethods.map fun meth =>
      (.required, declaredMethod trees ⟨0, .protocol, proto.mangledName⟩ meth))
  properties := proto.properties.map translateProperty

/-- A class. -/
def declaredClass (demangle : Str → Str) (cls : Class Protocol) : InterfaceDecl where
  decl := ⟨0, .interface, demangle cls.name⟩
  protocols := cls.protocols.map fun proto => ⟨0, .protocol, proto.mangledName⟩
  methods := cls.methods.map (declaredMethod trees ⟨0, .interface, demangle cls.name⟩)
  ivars := cls.ivars.map (declaredIvar trees)
  properties := cls.properties.map translateProperty

end

namespace ImageSpec

/-- The signatures of the methods. -/
def signatures (spec : ImageSpec) : List Str :=
  (spec.protocols.flatMap fun proto =>
      (proto.value.optMethods ++ proto.value.requiredMethods).map Method.mangledType) ++
    spec.classes.flatMap fun cls => (cls.value spec.protocolOf).methods.map Method.mangledType

/-- The encodings of the instance variables. -/
def encodings (spec : ImageSpec) : List Str :=
  spec.classes.flatMap fun cls => (cls.value spec.protocolOf).ivars.map IVar.mangledType

/-- The protocols of the program, with the types of the trees. -/
def protocolDecls (spec : ImageSpec) (trees : Str → List Ty) : List ProtocolDecl :=
  spec.protocols.map fun proto => declaredProtocol trees proto.value

/-- The classes of the program, with the types of the trees. -/
def interfaceDecls (spec : ImageSpec) (trees : Str → List Ty) (demangle : Str → Str) :
    List InterfaceDecl :=
  spec.classes.map fun cls => declaredClass trees demangle (cls.value spec.protocolOf)

/-- The strings in the image are signatures and encodings of the trees, and no instance variable
has a type with the name of one before it. -/
structure Typed (spec : ImageSpec) (trees : Str → List Ty) : Prop where
  signatures : ∀ w ∈ spec.signatures, trees w ≠ [] ∧ Renders (trees w) w
  encodings : ∀ w ∈ spec.encodings, ∃ t, trees w = [t] ∧ Renders [t] w
  names : ∀ cls ∈ spec.classes, (cls.value spec.protocolOf).ivars.Pairwise fun earlier later =>
    ∀ t ∈ trees later.mangledType, lookedUpName t ≠ some earlier.name

/-- The numbers in the trees have one digit. -/
def OneDigit (spec : ImageSpec) (trees : Str → List Ty) : Prop :=
  ∀ w ∈ spec.signatures ++ spec.encodings, ∀ t ∈ trees w, t.AllNumbers (· < 10)

end ImageSpec

/-! ### Signatures -/

/-- The trees of an encoding are neither null nor lead to null. -/
lemma Encodes.sound {t : Ty} {w : Str} (h : Encodes t w) : Sound t.lastDigits := by
  induction h with
  | voidPointer => exact ⟨by simp [Ty.lastDigits, Ty.mapNumbers], by
      simp [Ty.lastDigits, Ty.mapNumbers, Ty.NullBelow]⟩
  | pointer _ _ ih => exact ⟨by simp [Ty.lastDigits, Ty.mapNumbers], fun h => h.elim ih.1 ih.2⟩
  | array _ _ ih => exact ⟨by simp [Ty.lastDigits, Ty.mapNumbers], fun h => h.elim ih.1 ih.2⟩
  | qualified _ _ ih => exact ih
  | _ => exact ⟨by simp [Ty.lastDigits, Ty.mapNumbers], id⟩

lemma Renders.sound {ts : List Ty} {w : Str} (h : Renders ts w) :
    ∀ t ∈ ts, Sound t.lastDigits := by
  induction h with
  | nil => exact fun t ht => absurd ht List.not_mem_nil
  | cons ht _ _ _ ih => exact List.forall_mem_cons.2 ⟨ht.sound, ih⟩

/-- A signature does not decode to anything that is hollow. -/
lemma Renders.not_hollow {ts : List Ty} {w : Str} (h : Renders ts w) : ¬ Hollow w := by
  rw [hollow_iff, decodeType_eq h]
  rintro ⟨t', ht', hbelow⟩
  obtain ⟨t, ht, rfl⟩ := List.mem_map.1 ht'
  exact (h.sound t ht).2 hbelow

lemma lookedUpName_lastDigits (t : Ty) : lookedUpName t.lastDigits = lookedUpName t := by
  induction t with
  | pointer t ih | array n t ih =>
      rw [Ty.lastDigits] at ih
      simpa only [Ty.lastDigits, Ty.mapNumbers, lookedUpName] using ih
  | _ => rfl

/-- The trees are those that the decoder makes of the strings in the image. -/
structure ImageSpec.Decodes (spec : ImageSpec) (trees : Str → List Ty) : Prop where
  signatures : ∀ w ∈ spec.signatures, decodeType w = trees w
  encodings : ∀ w ∈ spec.encodings, ∃ t, t ≠ .null ∧ trees w = [t] ∧ decodeType w = [t]

variable {trees : Str → List Ty}

lemma translateMethod_eq (container : NamedDecl) {meth : Method}
    (h : decodeType meth.mangledType = trees meth.mangledType) :
    translateMethod container meth = declaredMethod trees container meth := by
  rw [translateMethod, declaredMethod, Method.prototype, h]
  cases trees meth.mangledType <;> rfl

/-- The type of an instance variable that is read as one tree. -/
lemma IVar.type_eq {ivar : IVar} {t : Ty} (h : decodeType ivar.mangledType = [t]) :
    ivar.mangledType ≠ [] ∧ ivar.type = t := by
  have hne : ivar.mangledType ≠ [] := by
    intro hnil
    rw [hnil] at h
    cases h
  rw [IVar.type, if_neg hne, h]
  exact ⟨hne, rfl⟩

lemma translateIvar_eq {ivar : IVar} {t : Ty} (ht : t ≠ .null)
    (htrees : trees ivar.mangledType = [t]) (h : decodeType ivar.mangledType = [t]) :
    translateIvar ivar = declaredIvar trees ivar := by
  obtain ⟨hne, htype⟩ := IVar.type_eq h
  rw [translateIvar, declaredIvar, shape, if_neg hne, htype, if_neg (mt Ty.isNull_iff.1 ht), htrees]
  rfl

namespace ImageSpec

variable {base : UInt64} {spec : ImageSpec} {form : PtrForm base} {bin : Binary} {depth : ℕ}

lemma mem_signatures_of_protocol {proto : ProtocolSpec} (hproto : proto ∈ spec.protocols)
    {meth : Method} (h : meth ∈ proto.value.optMethods ++ proto.value.requiredMethods) :
    meth.mangledType ∈ spec.signatures :=
  List.mem_append_left _ (List.mem_flatMap.2 ⟨proto, hproto, List.mem_map_of_mem h⟩)

lemma mem_signatures_of_class {cls : ClassSpec spec.protocols.length} (hcls : cls ∈ spec.classes)
    {meth : Method} (h : meth ∈ (cls.value spec.protocolOf).methods) :
    meth.mangledType ∈ spec.signatures :=
  List.mem_append_right _ (List.mem_flatMap.2 ⟨cls, hcls, List.mem_map_of_mem h⟩)

lemma mem_encodings {cls : ClassSpec spec.protocols.length} (hcls : cls ∈ spec.classes)
    {ivar : IVar} (h : ivar ∈ (cls.value spec.protocolOf).ivars) :
    ivar.mangledType ∈ spec.encodings :=
  List.mem_flatMap.2 ⟨cls, hcls, List.mem_map_of_mem h⟩

namespace Decodes

variable (h : spec.Decodes trees)

include h

/-- What is translated are the declarations of the program. -/
lemma protocolDecls_eq :
    spec.protocols.map (fun proto => translateProtocol proto.value) = spec.protocolDecls trees := by
  refine List.map_congr_left fun proto hproto => ?_
  have hmap : ∀ {control : ImplementationControl} {container : NamedDecl} {methods : List Method},
      (∀ meth ∈ methods, meth ∈ proto.value.optMethods ++ proto.value.requiredMethods) →
        methods.map (fun meth => (control, translateMethod container meth)) =
          methods.map fun meth => (control, declaredMethod trees container meth) := by
    refine fun hmethods => List.map_congr_left fun meth hmeth => ?_
    have hsig := mem_signatures_of_protocol hproto (hmethods meth hmeth)
    rw [translateMethod_eq _ (h.signatures _ hsig)]
  rw [translateProtocol, declaredProtocol, hmap fun _ => List.mem_append_left _,
    hmap fun _ => List.mem_append_right _]

lemma interfaceDecls_eq (demangle : Str → Str) :
    spec.classes.map (fun cls => translateClass demangle (cls.value spec.protocolOf)) =
      spec.interfaceDecls trees demangle := by
  refine List.map_congr_left fun cls hcls => ?_
  have hmethods : ∀ meth ∈ (cls.value spec.protocolOf).methods, ∀ container,
      translateMethod container meth = declaredMethod trees container meth :=
    fun meth hmeth container =>
      translateMethod_eq container (h.signatures _ (mem_signatures_of_class hcls hmeth))
  have hivars : ∀ ivar ∈ (cls.value spec.protocolOf).ivars,
      translateIvar ivar = declaredIvar trees ivar := by
    intro ivar hivar
    obtain ⟨t, hne, htrees, hdecode⟩ := h.encodings _ (mem_encodings hcls hivar)
    exact translateIvar_eq hne htrees hdecode
  rw [translateClass, declaredClass, List.map_congr_left fun meth hmeth => hmethods meth hmeth _,
    List.map_congr_left hivars]

end Decodes

/-- Numbers of one digit are read as they are. -/
lemma OneDigit.map_lastDigits (h : spec.OneDigit trees) {w : Str}
    (hw : w ∈ spec.signatures ++ spec.encodings) : (trees w).map Ty.lastDigits = trees w := by
  refine (List.map_congr_left fun t ht => ?_).trans (List.map_id _)
  rw [Ty.lastDigits, id, Ty.mapNumbers_eq_self_iff]
  simpa using h w hw t ht

namespace Typed

variable (h : spec.Typed trees)

include h

/-- The decoder makes the trees, with the last digits of their numbers. -/
lemma decodes : spec.Decodes fun w => (trees w).map Ty.lastDigits where
  signatures := fun w hw => decodeType_eq (h.signatures w hw).2
  encodings := by
    intro w hw
    obtain ⟨t, htrees, hrenders⟩ := h.encodings w hw
    exact ⟨t.lastDigits, (hrenders.sound t (List.mem_singleton_self t)).1, by rw [htrees]; rfl,
      decodeType_eq hrenders⟩

lemma decodes_of_oneDigit (hdigit : spec.OneDigit trees) : spec.Decodes trees where
  signatures := fun w hw => (h.decodes.signatures w hw).trans
    (hdigit.map_lastDigits (List.mem_append_left _ hw))
  encodings := by
    intro w hw
    obtain ⟨t, hne, htrees, hdecode⟩ := h.decodes.encodings w hw
    exact ⟨t, hne, (hdigit.map_lastDigits (List.mem_append_right _ hw)).symm.trans htrees,
      hdecode⟩

lemma methodsSafe {methods : List Method}
    (hmethods : ∀ meth ∈ methods, meth.mangledType ∈ spec.signatures) : MethodsSafe methods := by
  intro meth hmeth
  obtain ⟨hne, hrenders⟩ := h.signatures _ (hmethods meth hmeth)
  refine ⟨?_, hrenders.not_hollow⟩
  rwa [decodeType_eq hrenders, Ne, List.map_eq_nil_iff]

/-- No instance variable looks up the name of one before it. -/
lemma lookedUp_ne {cls : ClassSpec spec.protocols.length} (hcls : cls ∈ spec.classes) :
    (cls.value spec.protocolOf).ivars.Pairwise fun earlier later =>
      lookedUp later ≠ some earlier.name := by
  refine (h.names cls hcls).imp_of_mem fun _ hlater hnames => ?_
  obtain ⟨t, htrees, hrenders⟩ := h.encodings _ (mem_encodings hcls hlater)
  obtain ⟨hne, htype⟩ := IVar.type_eq (decodeType_eq hrenders)
  rw [lookedUp, if_neg hne, htype, lookedUpName_lastDigits]
  exact hnames t (htrees ▸ List.mem_singleton_self t)

end Typed

/-- No null type is met in an image of the program. -/
lemma ShownBy.nullSafe_toDecl (h : spec.ShownBy form bin) (hdepth : spec.Fits depth)
    (htyped : spec.Typed trees) (demangle : Str → Str) :
    NullSafe (toDecl demangle (Parser.parse bin depth).2.store) := by
  refine (safeIff_toDecl demangle _).safe ⟨?_, ?_⟩
  · rw [h.protocolValues_eq hdepth, List.forall_mem_map]
    intro proto hproto
    exact List.forall_mem_append.1
      (htyped.methodsSafe fun _ hmeth => mem_signatures_of_protocol hproto hmeth)
  · rw [h.classValues_eq hdepth, List.forall_mem_map]
    intro cls hcls
    refine ⟨?_, htyped.methodsSafe fun _ hmeth => mem_signatures_of_class hcls hmeth,
      fun ivar hivar _ => ?_⟩
    · intro o ho
      obtain ⟨_, -, rfl⟩ := List.mem_map.1 ho
      rfl
    · obtain ⟨t, -, hrenders⟩ := htyped.encodings _ (mem_encodings hcls hivar)
      exact hrenders.not_hollow

/-- **A program is declared again with the types of its signatures**: when its image is parsed and
everything in it is declared, no null type is met, and the declarations are those of its protocols
and classes, with the last digits of the numbers in its types.  Where all numbers have one digit,
the types are the same. -/
theorem ShownBy.declare_declared (h : spec.ShownBy form bin) (hdepth : spec.Fits depth)
    (htyped : spec.Typed trees) (demangle : Str → Str) (n : ℕ) : ∃ ds n',
      toDecl demangle (Parser.parse bin depth).2.store n = .ok (ds, n') ∧
      ds.1.map ProtocolDecl.erase = spec.protocolDecls (fun w => (trees w).map Ty.lastDigits) ∧
      ds.2.map InterfaceDecl.erase =
        spec.interfaceDecls (fun w => (trees w).map Ty.lastDigits) demangle ∧
      (spec.OneDigit trees → ds.1.map ProtocolDecl.erase = spec.protocolDecls trees ∧
        ds.2.map InterfaceDecl.erase = spec.interfaceDecls trees demangle) := by
  have hclasses : (Parser.parse bin depth).2.store.classValues =
      (spec.classes.map (ClassSpec.value spec.protocolOf)).map (Class.map some) := by
    rw [h.classValues_eq hdepth, List.map_map]
    rfl
  cases hrun : toDecl demangle (Parser.parse bin depth).2.store n with
  | error e =>
      cases e
      exact absurd hrun (h.nullSafe_toDecl hdepth htyped demangle n)
  | ok r =>
      obtain ⟨ds, n'⟩ := r
      obtain ⟨n₁, hprotocolRun, hclassRun⟩ := toDecl_eq_ok hclasses hrun
      have hprotocolDecls := erase_generateProtocols hprotocolRun
      have hclassDecls := (erase_generateClasses_iff hclassRun).2
        (List.forall_mem_map.2 fun _ hcls => htyped.lookedUp_ne hcls)
      rw [h.protocolValues_eq hdepth, List.map_map] at hprotocolDecls
      rw [List.map_map] at hclassDecls
      have hdecls : ∀ {trees' : Str → List Ty}, spec.Decodes trees' →
          ds.1.map ProtocolDecl.erase = spec.protocolDecls trees' ∧
            ds.2.map InterfaceDecl.erase = spec.interfaceDecls trees' demangle := fun hdecodes =>
        ⟨hprotocolDecls.trans hdecodes.protocolDecls_eq,
          hclassDecls.trans (hdecodes.interfaceDecls_eq demangle)⟩
      exact ⟨ds, n', rfl, (hdecls htyped.decodes).1, (hdecls htyped.decodes).2,
        fun hdigit => hdecls (htyped.decodes_of_oneDigit hdigit)⟩

/-- The trees of the types of the sample. -/
def sampleTrees (w : Str) : List Ty :=
  if w = ['v'] then [.primitive .void] else if w = ['i'] then [.primitive .int] else []

lemma renders_code (p : Primitive) : Renders [.primitive p] [p.code] := by
  have h : Renders [.primitive p] ([p.code] ++ [] ++ []) :=
    .cons (.primitive p) (by simp) (juxtaposable_nil _) .nil
  exact h

lemma typed_sample : sampleSpec.Typed sampleTrees where
  signatures := by
    intro w hw
    have hall : sampleSpec.signatures = [['v'], ['v'], ['v']] := rfl
    obtain rfl : w = ['v'] := by simpa [hall] using hw
    exact ⟨by decide, renders_code .void⟩
  encodings := by
    intro w hw
    have hall : sampleSpec.encodings = [['i']] := rfl
    obtain rfl : w = ['i'] := by simpa [hall] using hw
    exact ⟨_, rfl, renders_code .int⟩
  names := List.forall_mem_singleton.2 (List.pairwise_singleton _ _)

/-- The class `C` is declared with the methods `g` and `f`, and with its number. -/
theorem declare_declared_sample : ∃ ds n',
    toDecl id (Parser.parse (sampleSpec.binary sampleForm "__DATA_DIRTY") 2).2.store 0 =
      .ok (ds, n') ∧
      ds.1.map ProtocolDecl.erase =
        [⟨⟨0, .protocol, ['P']⟩,
          [(.optional, ⟨⟨0, .method, ['m']⟩, .builtin .void, [], false⟩)], []⟩] ∧
      ds.2.map InterfaceDecl.erase =
        [⟨⟨0, .interface, ['C']⟩, [⟨0, .protocol, ['P']⟩],
          [⟨⟨0, .method, ['g']⟩, .builtin .void, [], false⟩,
            ⟨⟨0, .method, ['f']⟩, .builtin .void, [], true⟩],
          [⟨⟨0, .ivar, ['i']⟩, .builtin .int⟩], []⟩] := by
  have hshown : sampleSpec.ShownBy sampleForm (sampleSpec.binary sampleForm "__DATA_DIRTY") :=
    shownBy_binary (by simp) length_sample
  have hfits : sampleSpec.Fits 2 := List.forall_mem_singleton.2 (Nat.lt_succ_self 1)
  obtain ⟨ds, n', hrun, hprotocols, hclasses, -⟩ :=
    hshown.declare_declared hfits typed_sample id 0
  exact ⟨ds, n', hrun, hprotocols, hclasses⟩

end ImageSpec

end ICDump
