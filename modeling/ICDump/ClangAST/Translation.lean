/-
What is declared, without a generator (`ASTGen.cpp`).

`translateProtocol` and `translateClass` are the declarations of a protocol and of a class as
functions of it alone: nothing is looked up, and all identities are zero.  The generator makes these
declarations, up to the identities (`erase`).  For a protocol it always does, since nothing that can
be looked up is added before its methods are declared; for a class it does unless an instance
variable looks up the name of one before it.
-/
import ICDump.ClangAST.IvarTypes
import ICDump.ClangAST.ParamNames
import ICDump.ClangAST.ProtocolDecl

namespace ICDump

namespace ASTGen

/-! ### Declarations without identities -/

/-- The declaration without its identity. -/
def eraseDecl (d : NamedDecl) : NamedDecl := { d with id := 0 }

/-- The parameter without the identities in its type. -/
def ParmVarDecl.erase (d : ParmVarDecl) : ParmVarDecl := { d with type := d.type.erase }

/-- The method without identities. -/
def MethodDecl.erase (d : MethodDecl) : MethodDecl where
  decl := eraseDecl d.decl
  rtype := d.rtype.erase
  params := d.params.map ParmVarDecl.erase
  isInstance := d.isInstance

/-- The instance variable without identities. -/
def IvarDecl.erase (d : IvarDecl) : IvarDecl := ⟨eraseDecl d.decl, d.type.erase⟩

/-- The property without identities. -/
def PropertyDecl.erase (d : PropertyDecl) : PropertyDecl := ⟨eraseDecl d.decl, d.type.erase⟩

/-- The class without identities. -/
def InterfaceDecl.erase (d : InterfaceDecl) : InterfaceDecl where
  decl := eraseDecl d.decl
  protocols := d.protocols.map eraseDecl
  methods := d.methods.map MethodDecl.erase
  ivars := d.ivars.map IvarDecl.erase
  properties := d.properties.map PropertyDecl.erase

/-- The protocol without identities. -/
def ProtocolDecl.erase (d : ProtocolDecl) : ProtocolDecl where
  decl := eraseDecl d.decl
  methods := d.methods.map fun m => (m.1, m.2.erase)
  properties := d.properties.map PropertyDecl.erase

/-! ### The translation -/

/-- The type of the parameter at an index, in a class or a protocol: the first is the object that
the method is called on, if it is an object. -/
def translateParam (container : NamedDecl) : ℕ → Ty → QualType
  | 0, .object name =>
      if container.kind = .interface then .pointer (.interface (eraseDecl container))
      else shapeOf (.object name)
  | _, t => shapeOf t

/-- The parameters from an index on. -/
def translateParams (container : NamedDecl) : ℕ → List Ty → List ParmVarDecl
  | _, [] => []
  | i, p :: ps => ⟨paramName i p, translateParam container i p⟩ ::
      translateParams container (i + 1) ps

/-- A method of a class or a protocol. -/
def translateMethod (container : NamedDecl) (meth : Method) : MethodDecl where
  decl := ⟨0, .method, meth.name⟩
  rtype := shapeOf meth.prototype.rtype
  params := translateParams container 0 meth.prototype.params
  isInstance := meth.isInstance

/-- An instance variable. -/
def translateIvar (ivar : IVar) : IvarDecl := ⟨⟨0, .ivar, ivar.name⟩, shape ivar⟩

/-- A property.  Its attributes are not used. -/
def translateProperty (prop : Property) : PropertyDecl :=
  ⟨⟨0, .property, prop.name⟩, .builtin .void⟩

/-- A protocol. -/
def translateProtocol (proto : Protocol) : ProtocolDecl where
  decl := ⟨0, .protocol, proto.mangledName⟩
  methods :=
    (proto.optMethods.map fun meth =>
      (.optional, translateMethod ⟨0, .protocol, proto.mangledName⟩ meth)) ++
    (proto.requiredMethods.map fun meth =>
      (.required, translateMethod ⟨0, .protocol, proto.mangledName⟩ meth))
  properties := proto.properties.map translateProperty

/-- A class. -/
def translateClass (demangle : Str → Str) (cls : Class Protocol) : InterfaceDecl where
  decl := ⟨0, .interface, demangle cls.name⟩
  protocols := cls.protocols.map fun proto => ⟨0, .protocol, proto.mangledName⟩
  methods := cls.methods.map (translateMethod ⟨0, .interface, demangle cls.name⟩)
  ivars := cls.ivars.map translateIvar
  properties := cls.properties.map translateProperty

/-! ### Methods -/

variable {dc : DeclContext} {n n' : ℕ}

/-- Nothing is found in the context. -/
def FindsNothing (dc : DeclContext) : Prop := ∀ name, search name dc.scopes = []

lemma FindsNothing.findsIvars (h : FindsNothing dc) : FindsIvars dc := by
  intro name d hd
  rw [h name] at hd
  exact absurd hd List.not_mem_nil

lemma FindsNothing.inner (h : FindsNothing dc) (d : NamedDecl) : FindsNothing (dc.inner d) := by
  intro name
  rw [DeclContext.inner, search]
  exact h name

lemma Holds.findsNothing (h : Holds dc []) : FindsNothing dc := fun name =>
  (h.search_eq_nil_iff name).2 List.not_mem_nil

lemma FindsNothing.erase_getQType (h : FindsNothing dc) {t : Ty} {q : QualType}
    (hrun : getQType dc t n = .ok (q, n')) : q.erase = shapeOf t :=
  (erase_getQType_iff h.findsIvars hrun).2 fun name _ => h name

variable {inside : DeclContext} {i : ℕ}

/-- A parameter has the name and the type of the translation. -/
lemma erase_declParam (h : FindsNothing inside) {p : Ty} {d : ParmVarDecl}
    (hrun : declParam dc inside i p n = .ok (d, n')) :
    d.erase = ⟨paramName i p, translateParam dc.decl i p⟩ := by
  have hname := name_declParam hrun
  have htype : d.type.erase = translateParam dc.decl i p := by
    unfold declParam at hrun
    split at hrun
    · cases hrun
    · rw [translateParam]
      split at hrun
      · rename_i hkind
        obtain ⟨rfl, -⟩ := pure_eq_ok.1 hrun
        rw [if_pos hkind]
        rfl
      · rename_i hkind
        obtain ⟨qt, n₁, hqt, hrun⟩ := bind_eq_ok.1 hrun
        obtain ⟨rfl, -⟩ := pure_eq_ok.1 hrun
        rw [if_neg hkind]
        exact h.erase_getQType hqt
    · obtain ⟨qt, n₁, hqt, hrun⟩ := bind_eq_ok.1 hrun
      obtain ⟨rfl, -⟩ := pure_eq_ok.1 hrun
      rw [translateParam]
      · exact h.erase_getQType hqt
      · intro name _ hp
        cases hp
    · rename_i hobject
      obtain ⟨qt, n₁, hqt, hrun⟩ := bind_eq_ok.1 hrun
      obtain ⟨rfl, -⟩ := pure_eq_ok.1 hrun
      rw [translateParam]
      · exact h.erase_getQType hqt
      · exact fun name hi hp => hobject name hp hi
  rw [ParmVarDecl.erase, hname, htype]

lemma DeclaresEach.erase (h : FindsNothing inside) {ps : List Ty} {ds : List ParmVarDecl}
    (hdeclares : DeclaresEach dc inside i ps ds) :
    ds.map ParmVarDecl.erase = translateParams dc.decl i ps := by
  induction hdeclares with
  | nil => rfl
  | cons hd _ ih => rw [List.map_cons, ih, erase_declParam h hd, translateParams]

lemma translateParams_eraseDecl (container : NamedDecl) (i : ℕ) (ps : List Ty) :
    translateParams (eraseDecl container) i ps = translateParams container i ps := by
  have hparam : ∀ i p, translateParam (eraseDecl container) i p = translateParam container i p := by
    intro i p
    unfold translateParam
    split <;> rfl
  induction ps generalizing i with
  | nil => rfl
  | cons p ps ih => rw [translateParams, translateParams, hparam, ih]

/-- A method is declared as it is translated. -/
lemma erase_declMethod (h : FindsNothing dc) {meth : Method} {d : MethodDecl} {dc' : DeclContext}
    (hrun : declMethod meth dc n = .ok ((d, dc'), n')) :
    d.erase = translateMethod (eraseDecl dc.decl) meth := by
  have hdeclares := declMethod_declaresEach hrun
  obtain ⟨rtype, n₁, hrtype, hrun⟩ := bind_eq_ok.1 hrun
  obtain ⟨decl, n₂, hdecl, hrun⟩ := bind_eq_ok.1 hrun
  obtain ⟨params, n₃, -, hrun⟩ := bind_eq_ok.1 hrun
  obtain ⟨heq, -⟩ := pure_eq_ok.1 hrun
  obtain ⟨rfl, rfl⟩ := Prod.mk.inj heq
  have hparams := hdeclares.erase (h.inner decl)
  rw [MethodDecl.erase, translateMethod, translateParams_eraseDecl, ← hparams,
    h.erase_getQType hrtype, create_eq_ok hdecl]
  rfl

/-- Methods are declared one after the other, and none of them is found by a later one. -/
lemma erase_declMethods (h : Holds dc []) {methods : List Method} {ds : List MethodDecl}
    {dc' : DeclContext} (hrun : declEach declMethod methods dc n = .ok ((ds, dc'), n')) :
    ds.map MethodDecl.erase = methods.map (translateMethod (eraseDecl dc.decl)) ∧
      dc'.decl = dc.decl ∧ Holds dc' [] := by
  induction methods generalizing dc dc' n n' ds with
  | nil =>
      obtain ⟨rfl, rfl⟩ := declEach_nil_eq_ok hrun
      exact ⟨rfl, rfl, h⟩
  | cons meth methods ih =>
      obtain ⟨d, ds', dc₁, n₁, n₂, hd, hds, rfl⟩ := declEach_cons_eq_ok hrun
      obtain ⟨hkind, hdc, -⟩ := declMethod_eq_ok hd
      have hdecl : dc₁.decl = dc.decl := by
        rw [hdc, DeclContext.addDecl]
        split <;> rfl
      obtain ⟨hrest, hdecl', hholds⟩ := ih (hdc ▸ h.addMethod hkind) hds
      refine ⟨?_, hdecl'.trans hdecl, hholds⟩
      rw [List.map_cons, hrest, erase_declMethod h.findsNothing hd, hdecl, List.map_cons]

/-- Properties are declared as they are translated, in any context. -/
lemma erase_declProperties {props : List Property} {ds : List PropertyDecl} {dc' : DeclContext}
    (hrun : declEach declProperty props dc n = .ok ((ds, dc'), n')) :
    ds.map PropertyDecl.erase = props.map translateProperty := by
  induction props generalizing dc dc' n n' ds with
  | nil =>
      obtain ⟨rfl, -⟩ := declEach_nil_eq_ok hrun
      rfl
  | cons prop props ih =>
      obtain ⟨d, ds', dc₁, n₁, n₂, hd, hds, rfl⟩ := declEach_cons_eq_ok hrun
      obtain ⟨decl, m, hdecl, hd⟩ := bind_eq_ok.1 hd
      obtain ⟨heq, -⟩ := pure_eq_ok.1 hd
      obtain ⟨rfl, rfl⟩ := Prod.mk.inj heq
      rw [List.map_cons, ih hds, create_eq_ok hdecl]
      rfl

/-! ### Protocols -/

/-- **A protocol is declared as it is translated**, whenever it is declared. -/
lemma erase_generateProtocol {proto : Protocol} {d : ProtocolDecl}
    (hrun : generateProtocol proto n = .ok (d, n')) : d.erase = translateProtocol proto := by
  obtain ⟨unit, n₁, -, hrun⟩ := bind_eq_ok.1 hrun
  obtain ⟨⟨decl, dc⟩, n₂, hdecl, hrun⟩ := bind_eq_ok.1 hrun
  obtain ⟨rfl, -⟩ := pure_eq_ok.1 hrun
  obtain ⟨protocolDecl, m₁, hprotocol, hdecl⟩ := bind_eq_ok.1 hdecl
  obtain ⟨⟨optMethods, inside⟩, m₂, hopt, hdecl⟩ := bind_eq_ok.1 hdecl
  obtain ⟨⟨requiredMethods, inside'⟩, m₃, hrequired, hdecl⟩ := bind_eq_ok.1 hdecl
  obtain ⟨⟨properties, inside''⟩, m₄, hproperties, hdecl⟩ := bind_eq_ok.1 hdecl
  obtain ⟨heq, -⟩ := pure_eq_ok.1 hdecl
  obtain ⟨rfl, -⟩ := Prod.mk.inj heq
  obtain ⟨heraseOpt, hinside, hholds⟩ := erase_declMethods (holds_inner unit protocolDecl) hopt
  obtain ⟨heraseRequired, -, -⟩ := erase_declMethods hholds hrequired
  have hcontainer : eraseDecl protocolDecl = ⟨0, .protocol, proto.mangledName⟩ := by
    rw [create_eq_ok hprotocol, eraseDecl]
  rw [hinside] at heraseRequired
  have hmethods : ∀ (control : ImplementationControl) (ds : List MethodDecl)
      (methods : List Method), ds.map MethodDecl.erase =
        methods.map (translateMethod (eraseDecl protocolDecl)) →
      (ds.map (control, ·)).map (fun m => (m.1, m.2.erase)) =
        methods.map fun meth => (control, translateMethod (eraseDecl protocolDecl) meth) := by
    intro control ds methods h
    have hpairs := congrArg (List.map (control, ·)) h
    rw [List.map_map, List.map_map] at hpairs
    rw [List.map_map]
    exact hpairs
  rw [ProtocolDecl.erase, translateProtocol, List.map_append, hmethods _ _ _ heraseOpt,
    hmethods _ _ _ heraseRequired, erase_declProperties hproperties, hcontainer]

/-! ### Classes -/

lemma erase_declProtocolNames {protocols : List Protocol} {ds : List NamedDecl}
    (hrun : declProtocolNames protocols n = .ok (ds, n')) :
    ds.map eraseDecl = protocols.map fun proto => ⟨0, .protocol, proto.mangledName⟩ := by
  induction protocols generalizing n n' ds with
  | nil =>
      obtain ⟨rfl, -⟩ := pure_eq_ok.1 hrun
      rfl
  | cons proto protocols ih =>
      obtain ⟨decl, n₁, hdecl, hrun⟩ := bind_eq_ok.1 hrun
      obtain ⟨decls, n₂, hdecls, hrun⟩ := bind_eq_ok.1 hrun
      obtain ⟨rfl, -⟩ := pure_eq_ok.1 hrun
      rw [List.map_cons, ih hdecls, create_eq_ok hdecl]
      rfl

/-- An instance variable is declared as it is translated when its type is. -/
lemma erase_declIvars_iff {ivars : List IVar} {ds : List IvarDecl} {dc' : DeclContext}
    (hrun : declEach declIvar ivars dc n = .ok ((ds, dc'), n')) :
    ds.map IvarDecl.erase = ivars.map translateIvar ↔
      List.Forall₂ (fun ivar d => d.type.erase = shape ivar) ivars ds := by
  induction ivars generalizing dc dc' n n' ds with
  | nil =>
      obtain ⟨rfl, -⟩ := declEach_nil_eq_ok hrun
      simp
  | cons ivar ivars ih =>
      obtain ⟨d, ds', dc₁, n₁, n₂, hd, hds, rfl⟩ := declEach_cons_eq_ok hrun
      obtain ⟨hkind, hname, -⟩ := declIvar_eq_ok hd
      have hhead : d.erase = translateIvar ivar ↔ d.type.erase = shape ivar := by
        rw [IvarDecl.erase, translateIvar, IvarDecl.mk.injEq, eraseDecl, hkind, hname]
        exact and_iff_right rfl
      rw [List.map_cons, List.map_cons, List.cons.injEq, List.forall₂_cons, hhead, ih hds]

/-- **A class is declared as it is translated** exactly when no instance variable looks up the name
of one that is declared before it. -/
lemma erase_generate_iff {demangle : Str → Str} {cls : Class Protocol} {d : InterfaceDecl}
    (hrun : generate demangle cls n = .ok (d, n')) :
    d.erase = translateClass demangle cls ↔
      cls.ivars.Pairwise fun earlier later => lookedUp later ≠ some earlier.name := by
  rw [← forall₂_shape_iff hrun]
  obtain ⟨unit, n₁, -, hrun⟩ := bind_eq_ok.1 hrun
  obtain ⟨⟨decl, dc⟩, n₂, hdecl, hrun⟩ := bind_eq_ok.1 hrun
  obtain ⟨rfl, -⟩ := pure_eq_ok.1 hrun
  obtain ⟨clsDecl, m₁, hcls, hdecl⟩ := bind_eq_ok.1 hdecl
  obtain ⟨protocols, m₂, hprotocols, hdecl⟩ := bind_eq_ok.1 hdecl
  obtain ⟨⟨methods, inside⟩, m₃, hmethods, hdecl⟩ := bind_eq_ok.1 hdecl
  obtain ⟨⟨ivars, inside'⟩, m₄, hivars, hdecl⟩ := bind_eq_ok.1 hdecl
  obtain ⟨⟨properties, inside''⟩, m₅, hproperties, hdecl⟩ := bind_eq_ok.1 hdecl
  obtain ⟨heq, -⟩ := pure_eq_ok.1 hdecl
  obtain ⟨rfl, -⟩ := Prod.mk.inj heq
  obtain ⟨herase, -, -⟩ := erase_declMethods (holds_inner unit clsDecl) hmethods
  have hcontainer : eraseDecl clsDecl = ⟨0, .interface, demangle cls.name⟩ := by
    rw [create_eq_ok hcls, eraseDecl]
  have hcontainer' : (DeclContext.inner ⟨unit, [[]]⟩ clsDecl).decl = clsDecl := rfl
  rw [hcontainer', hcontainer] at herase
  rw [InterfaceDecl.erase, translateClass, InterfaceDecl.mk.injEq, herase, hcontainer,
    erase_declProtocolNames hprotocols, erase_declProperties hproperties,
    ← erase_declIvars_iff hivars]
  simp only [true_and, and_true]

/-! ### Whole images -/

lemma erase_generateEach {α δ δ' : Type} {generate : α → ASTGen δ} {erase : δ → δ'}
    {translate : α → δ'} {P : α → Prop} (h : ∀ {x n d n'}, generate x n = .ok (d, n') →
      (erase d = translate x ↔ P x)) {xs : List α} {ds : List δ}
    (hrun : generateEach generate xs n = .ok (ds, n')) :
    ds.map erase = xs.map translate ↔ ∀ x ∈ xs, P x := by
  induction xs generalizing n n' ds with
  | nil =>
      obtain ⟨rfl, -⟩ := pure_eq_ok.1 hrun
      simp
  | cons x xs ih =>
      obtain ⟨d, n₁, hd, hrun⟩ := bind_eq_ok.1 hrun
      obtain ⟨ds', n₂, hds, hrun⟩ := bind_eq_ok.1 hrun
      obtain ⟨rfl, -⟩ := pure_eq_ok.1 hrun
      rw [List.map_cons, List.map_cons, List.cons.injEq, h hd, ih hds, List.forall_mem_cons]

lemma generatePointing_map_some (demangle : Str → Str) (cls : Class Protocol) :
    generatePointing demangle (cls.map some) = generate demangle cls := by
  have hall : ∀ l : List Protocol, (l.map some).mapM id = some l := by
    intro l
    induction l with
    | nil => rfl
    | cons proto l ih =>
        rw [List.map_cons, List.mapM_cons, ih]
        rfl
  have hprotocols : (cls.map some).protocols.mapM id = some cls.protocols := hall cls.protocols
  rw [generatePointing, hprotocols]
  rfl

lemma generateEach_map {α β δ : Type} (generate : β → ASTGen δ) (f : α → β) (xs : List α) :
    generateEach generate (xs.map f) = generateEach (fun x => generate (f x)) xs := by
  induction xs with
  | nil => rfl
  | cons x xs ih => rw [List.map_cons, generateEach, generateEach, ih]

/-- Everything is declared: the protocols first, and then the classes. -/
lemma toDecl_eq_ok {demangle : Str → Str} {store : Store} {classes : List (Class Protocol)}
    (hclasses : store.classValues = classes.map (Class.map some))
    {ds : List ProtocolDecl × List InterfaceDecl} (hrun : toDecl demangle store n = .ok (ds, n')) :
    ∃ n₁, generateEach generateProtocol store.protocolValues n = .ok (ds.1, n₁) ∧
      generateEach (generate demangle) classes n₁ = .ok (ds.2, n') := by
  obtain ⟨protocols, n₁, hprotocols, hrun⟩ := bind_eq_ok.1 hrun
  obtain ⟨interfaces, n₂, hinterfaces, hrun⟩ := bind_eq_ok.1 hrun
  obtain ⟨rfl, rfl⟩ := pure_eq_ok.1 hrun
  rw [hclasses, generateEach_map] at hinterfaces
  simp only [generatePointing_map_some] at hinterfaces
  exact ⟨n₁, hprotocols, hinterfaces⟩

lemma erase_generateProtocols {protocols : List Protocol} {ds : List ProtocolDecl}
    (hrun : generateEach generateProtocol protocols n = .ok (ds, n')) :
    ds.map ProtocolDecl.erase = protocols.map translateProtocol :=
  (erase_generateEach (P := fun _ => True)
    (fun h => iff_of_true (erase_generateProtocol h) trivial) hrun).2 fun _ _ => trivial

lemma erase_generateClasses_iff {demangle : Str → Str} {classes : List (Class Protocol)}
    {ds : List InterfaceDecl} (hrun : generateEach (generate demangle) classes n = .ok (ds, n')) :
    ds.map InterfaceDecl.erase = classes.map (translateClass demangle) ↔
      ∀ cls ∈ classes, cls.ivars.Pairwise fun earlier later =>
        lookedUp later ≠ some earlier.name :=
  erase_generateEach (fun h => erase_generate_iff h) hrun

/-- **A whole image is declared as it is translated**: all its protocols, whatever they are, and
all its classes exactly when in none of them an instance variable looks up the name of one that is
declared before it. -/
theorem toDecl_translation_iff {demangle : Str → Str} {store : Store}
    {classes : List (Class Protocol)} (hclasses : store.classValues = classes.map (Class.map some))
    {ds : List ProtocolDecl × List InterfaceDecl} (hrun : toDecl demangle store n = .ok (ds, n')) :
    ds.1.map ProtocolDecl.erase = store.protocolValues.map translateProtocol ∧
      (ds.2.map InterfaceDecl.erase = classes.map (translateClass demangle) ↔
        ∀ cls ∈ classes, cls.ivars.Pairwise fun earlier later =>
          lookedUp later ≠ some earlier.name) := by
  obtain ⟨n₁, hprotocols, hinterfaces⟩ := toDecl_eq_ok hclasses hrun
  exact ⟨erase_generateProtocols hprotocols, erase_generateClasses_iff hinterfaces⟩

/-- The protocol `P`, which requires the method `f`. -/
def plainProtocol : Protocol := ⟨['P'], [], [plainMethod], []⟩

/-- The class `C` with a number and a structure, which adopts `P`. -/
def adoptingClass : Class Protocol :=
  { numberClass with name := ['C'], protocols := [plainProtocol] }

/-- A store with this protocol and this class. -/
def adoptingStore : Store :=
  (Store.initial.apply (.listProtocol 0 plainProtocol)).apply
    (.appendClass (adoptingClass.map fun _ => 0))

/-- The structure of `C` has its own type. -/
theorem toDecl_translation_adopting : ∃ ds n', toDecl id adoptingStore 0 = .ok (ds, n') ∧
    ds.1.map ProtocolDecl.erase = [translateProtocol plainProtocol] ∧
      ds.2.map InterfaceDecl.erase = [translateClass id adoptingClass] := by
  have hclasses : adoptingStore.classValues = [adoptingClass].map (Class.map some) := rfl
  refine ⟨_, _, rfl, ?_⟩
  obtain ⟨hprotocols, hinterfaces⟩ := toDecl_translation_iff hclasses rfl
  refine ⟨hprotocols, hinterfaces.2 ?_⟩
  rw [List.forall_mem_singleton]
  exact List.pairwise_pair.2 (by decide)

end ASTGen

end ICDump
