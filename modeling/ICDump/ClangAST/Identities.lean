/-
No declaration is used twice (`get_qtype`).

Before it makes a structure, a union or a class, `get_qtype` looks for one with that name.  It never
finds one: what is added to a context are methods, instance variables and properties, and the
others are added to none.  So every type that needs a declaration gets one of its own, also where
two types have the same name (`Drawn`).
-/
import ICDump.ClangAST.Translation
import ICDump.Library.Supply

namespace ICDump

open Supply

/-- The identities of the declarations in a type. -/
def QualType.ids : QualType → List ℕ
  | .null => []
  | .builtin _ => []
  | .pointer pointee => pointee.ids
  | .const type => type.ids
  | .constantArray element _ => element.ids
  | .record decl => [decl.id]
  | .interface decl => [decl.id]

namespace ASTGen

/-! ### The identities of a declaration -/

/-- Those of the type of a parameter, unless it is the class that the method belongs to. -/
def ParmVarDecl.ids (container : NamedDecl) (d : ParmVarDecl) : List ℕ :=
  if d.type = .pointer (.interface container) then [] else d.type.ids

/-- Those of a method. -/
def MethodDecl.ids (container : NamedDecl) (d : MethodDecl) : List ℕ :=
  d.rtype.ids ++ d.decl.id :: d.params.flatMap (ParmVarDecl.ids container)

/-- Those of an instance variable. -/
def IvarDecl.ids (d : IvarDecl) : List ℕ := d.type.ids ++ [d.decl.id]

/-- Those of a class, in the order in which they are made. -/
def InterfaceDecl.ids (d : InterfaceDecl) : List ℕ :=
  d.decl.id :: d.protocols.map NamedDecl.id ++ d.methods.flatMap (MethodDecl.ids d.decl) ++
    d.ivars.flatMap IvarDecl.ids ++ d.properties.map fun p => p.decl.id

/-- Those of a protocol. -/
def ProtocolDecl.ids (d : ProtocolDecl) : List ℕ :=
  d.decl.id :: d.methods.flatMap (fun m => m.2.ids d.decl) ++ d.properties.map fun p => p.decl.id

variable {dc : DeclContext} {n n' : ℕ}

/-! ### Types -/

lemma drawn_pure {α : Type} {a b : α} {ids : α → List ℕ} (h : (pure a : ASTGen α) n = .ok (b, n'))
    (hids : ids a = []) : Drawn n n' (ids b) := by
  obtain ⟨rfl, rfl⟩ := pure_eq_ok.1 h
  rw [hids]
  exact .nil le_rfl

lemma drawn_create {kind : DeclKind} {name : Str} {d : NamedDecl}
    (h : create kind name n = .ok (d, n')) : Drawn n n' [d.id] := by
  obtain ⟨rfl, rfl⟩ := Prod.mk.inj (Except.ok.inj h)
  exact .one n

/-- What is made of a new declaration. -/
lemma drawn_create_pure {kind : DeclKind} {name : Str} {f : NamedDecl → QualType} {q : QualType}
    (h : (create kind name >>= fun d => pure (f d)) n = .ok (q, n'))
    (hf : ∀ d, (f d).ids = [d.id]) : Drawn n n' q.ids := by
  obtain ⟨d, n₁, hd, h⟩ := bind_eq_ok.1 h
  obtain ⟨rfl, rfl⟩ := pure_eq_ok.1 h
  rw [hf]
  exact drawn_create hd

variable {q : QualType}

lemma drawn_nsObjectTy (hdc : FindsIvars dc) (h : nsObjectTy dc n = .ok (q, n')) :
    Drawn n n' q.ids := by
  have hfound := hdc nsObjectName
  rw [nsObjectTy] at h
  rcases hsearch : search nsObjectName dc.scopes with _ | ⟨d, ds⟩
  · rw [hsearch] at h
    exact drawn_create_pure h fun _ => rfl
  · have hkind : d.kind ≠ .interface := by simp [hfound d (by simp [hsearch])]
    rw [hsearch] at h
    simp only [if_neg hkind] at h
    exact drawn_pure h rfl

lemma drawn_getTagType (hdc : FindsIvars dc) {tag : TagKind} {name : Str}
    (h : getTagType dc tag name n = .ok (q, n')) : Drawn n n' q.ids := by
  have hfound := hdc (prettyStruct name)
  rw [getTagType] at h
  rcases hsearch : search (prettyStruct name) dc.scopes with _ | ⟨d, _ | ⟨d', ds⟩⟩
  · rw [hsearch] at h
    exact drawn_create_pure h fun _ => rfl
  · have hkind : d.kind = .ivar := hfound d (by simp [hsearch])
    rw [hsearch] at h
    simp only [NamedDecl.isRecord, hkind] at h
    exact drawn_pure h rfl
  · rw [hsearch] at h
    exact drawn_pure h rfl

lemma drawn_getObjectType (hdc : FindsIvars dc) {name : Str}
    (h : getObjectType dc name n = .ok (q, n')) : Drawn n n' q.ids := by
  have hfound := hdc name
  rw [getObjectType] at h
  rcases hsearch : search name dc.scopes with _ | ⟨d, _ | ⟨d', ds⟩⟩
  · rw [hsearch] at h
    exact drawn_create_pure h fun _ => rfl
  · have hkind : d.kind ≠ .interface := by simp [hfound d (by simp [hsearch])]
    rw [hsearch] at h
    simp only [if_neg hkind] at h
    exact drawn_pure h rfl
  · rw [hsearch] at h
    exact drawn_pure h rfl

/-- The declaration in a type is a new one. -/
lemma drawn_getQType (hdc : FindsIvars dc) {t : Ty} (h : getQType dc t n = .ok (q, n')) :
    Drawn n n' q.ids := by
  induction t generalizing q n' with
  | null => cases h
  | pointer t ih =>
      obtain ⟨utype, n₁, hutype, h⟩ := bind_eq_ok.1 h
      obtain ⟨rfl, rfl⟩ := pure_eq_ok.1 h
      rw [QualType.ids]
      exact ih hutype
  | array dim t ih =>
      obtain ⟨element, n₁, helement, h⟩ := bind_eq_ok.1 h
      obtain ⟨rfl, rfl⟩ := pure_eq_ok.1 h
      rw [QualType.ids]
      exact ih helement
  | struct name as => exact drawn_getTagType hdc h
  | union name as => exact drawn_getTagType hdc h
  | object name => exact drawn_getObjectType hdc h
  | primitive p => exact drawn_pure h (by cases p <;> rfl)
  | _ => exact drawn_pure h rfl

/-! ### Methods -/

lemma FindsIvars.inner (h : FindsIvars dc) (d : NamedDecl) : FindsIvars (dc.inner d) := by
  intro name
  rw [DeclContext.inner, search]
  exact h name

/-- The type of a parameter is the class, or has a declaration of its own. -/
lemma drawn_declParam {inside : DeclContext} (hdc : FindsIvars inside) {i : ℕ} {p : Ty}
    {d : ParmVarDecl} (h : declParam dc inside i p n = .ok (d, n')) :
    Drawn n n' (d.ids dc.decl) := by
  have htype : ∀ {name : Str} {t : Ty} {qt : QualType}, getQType inside t n = .ok (qt, n') →
      Drawn n n' ((ParmVarDecl.mk name qt).ids dc.decl) := by
    intro name t qt hqt
    have hdrawn := drawn_getQType hdc hqt
    rw [ParmVarDecl.ids]
    split
    · exact .nil hdrawn.le
    · exact hdrawn
  unfold declParam at h
  split at h
  · cases h
  · split at h
    · obtain ⟨rfl, rfl⟩ := pure_eq_ok.1 h
      rw [ParmVarDecl.ids, if_pos rfl]
      exact .nil le_rfl
    · obtain ⟨qt, n₁, hqt, h⟩ := bind_eq_ok.1 h
      obtain ⟨rfl, rfl⟩ := pure_eq_ok.1 h
      exact htype hqt
  · obtain ⟨qt, n₁, hqt, h⟩ := bind_eq_ok.1 h
    obtain ⟨rfl, rfl⟩ := pure_eq_ok.1 h
    exact htype hqt
  · obtain ⟨qt, n₁, hqt, h⟩ := bind_eq_ok.1 h
    obtain ⟨rfl, rfl⟩ := pure_eq_ok.1 h
    exact htype hqt

lemma drawn_declParams {inside : DeclContext} (hdc : FindsIvars inside) {i : ℕ} {ps : List Ty}
    {ds : List ParmVarDecl} (h : declParams dc inside i ps n = .ok (ds, n')) :
    Drawn n n' (ds.flatMap (ParmVarDecl.ids dc.decl)) := by
  induction ps generalizing i n n' ds with
  | nil =>
      obtain ⟨rfl, rfl⟩ := pure_eq_ok.1 h
      exact .nil le_rfl
  | cons p ps ih =>
      obtain ⟨d, n₁, hd, h⟩ := bind_eq_ok.1 h
      obtain ⟨ds', n₂, hds, h⟩ := bind_eq_ok.1 h
      obtain ⟨rfl, rfl⟩ := pure_eq_ok.1 h
      exact (drawn_declParam hdc hd).append (ih hds)

lemma drawn_declMethod (hdc : FindsIvars dc) {meth : Method} {d : MethodDecl} {dc' : DeclContext}
    (h : declMethod meth dc n = .ok ((d, dc'), n')) : Drawn n n' (d.ids dc.decl) := by
  obtain ⟨rtype, n₁, hrtype, h⟩ := bind_eq_ok.1 h
  obtain ⟨decl, n₂, hdecl, h⟩ := bind_eq_ok.1 h
  obtain ⟨params, n₃, hparams, h⟩ := bind_eq_ok.1 h
  obtain ⟨heq, rfl⟩ := pure_eq_ok.1 h
  obtain ⟨rfl, -⟩ := Prod.mk.inj heq
  exact (drawn_getQType hdc hrtype).append
    ((drawn_create hdecl).append (drawn_declParams (hdc.inner decl) hparams))

/-! ### Classes and protocols -/

/-- The declarations of a list are made one after the other, as long as each keeps what they need of
the context. -/
lemma drawn_declEach {α δ : Type} {decl : α → DeclContext → ASTGen (δ × DeclContext)}
    {ids : δ → List ℕ} {I : DeclContext → Prop}
    (hstep : ∀ {x dc n d dc' n'}, I dc → decl x dc n = .ok ((d, dc'), n') →
      I dc' ∧ Drawn n n' (ids d)) {xs : List α} {ds : List δ} {dc' : DeclContext} (hdc : I dc)
    (h : declEach decl xs dc n = .ok ((ds, dc'), n')) : I dc' ∧ Drawn n n' (ds.flatMap ids) := by
  induction xs generalizing dc dc' n n' ds with
  | nil =>
      obtain ⟨heq, rfl⟩ := pure_eq_ok.1 h
      obtain ⟨rfl, rfl⟩ := Prod.mk.inj heq
      exact ⟨hdc, .nil le_rfl⟩
  | cons x xs ih =>
      obtain ⟨⟨d, dc₁⟩, n₁, hd, h⟩ := bind_eq_ok.1 h
      obtain ⟨⟨ds', dc₂⟩, n₂, hds, h⟩ := bind_eq_ok.1 h
      obtain ⟨heq, rfl⟩ := pure_eq_ok.1 h
      obtain ⟨rfl, rfl⟩ := Prod.mk.inj heq
      obtain ⟨hdc₁, hdrawn⟩ := hstep hdc hd
      obtain ⟨hdc₂, hrest⟩ := ih hdc₁ hds
      exact ⟨hdc₂, hdrawn.append hrest⟩

lemma decl_addDecl (dc : DeclContext) (d : NamedDecl) : (dc.addDecl d).decl = dc.decl := by
  rw [DeclContext.addDecl]
  split <;> rfl

lemma drawn_declMethods (container : NamedDecl) {methods : List Method} {ds : List MethodDecl}
    {dc' : DeclContext} (hdc : dc.decl = container ∧ Holds dc [])
    (h : declEach declMethod methods dc n = .ok ((ds, dc'), n')) :
    (dc'.decl = container ∧ Holds dc' []) ∧ Drawn n n' (ds.flatMap (MethodDecl.ids container)) := by
  refine drawn_declEach (I := fun dc => dc.decl = container ∧ Holds dc [])
    (fun {x dc n d dc' n'} hdc h => ?_) hdc h
  obtain ⟨rfl, hholds⟩ := hdc
  obtain ⟨hkind, rfl, -⟩ := declMethod_eq_ok h
  exact ⟨⟨decl_addDecl dc d.decl, hholds.addMethod hkind⟩, drawn_declMethod hholds.findsIvars h⟩

lemma drawn_ivarType (hdc : FindsIvars dc) {ivar : IVar} (h : ivarType ivar dc n = .ok (q, n')) :
    Drawn n n' q.ids := by
  rw [ivarType] at h
  split at h
  · split at h
    · exact drawn_pure h rfl
    · exact drawn_getQType hdc h
  · obtain ⟨type, n₁, htype, h⟩ := bind_eq_ok.1 h
    obtain ⟨rfl, rfl⟩ := pure_eq_ok.1 h
    rw [QualType.ids]
    exact drawn_nsObjectTy hdc htype

lemma drawn_declIvars {names : List Str} {ivars : List IVar} {ds : List IvarDecl}
    {dc' : DeclContext} (hdc : Holds dc names)
    (h : declEach declIvar ivars dc n = .ok ((ds, dc'), n')) :
    Drawn n n' (ds.flatMap IvarDecl.ids) := by
  refine (drawn_declEach (I := fun dc => ∃ names, Holds dc names)
    (fun {x dc n d dc' n'} hdc h => ?_) ⟨names, hdc⟩ h).2
  obtain ⟨names, hholds⟩ := hdc
  obtain ⟨hkind, -, rfl, -⟩ := declIvar_eq_ok h
  refine ⟨⟨_, hholds.addIvar hkind⟩, ?_⟩
  obtain ⟨type, n₁, htype, h⟩ := bind_eq_ok.1 h
  obtain ⟨decl, n₂, hdecl, h⟩ := bind_eq_ok.1 h
  obtain ⟨heq, rfl⟩ := pure_eq_ok.1 h
  obtain ⟨rfl, -⟩ := Prod.mk.inj heq
  exact (drawn_ivarType hholds.findsIvars htype).append (drawn_create hdecl)

lemma drawn_declProperties {props : List Property} {ds : List PropertyDecl} {dc' : DeclContext}
    (h : declEach declProperty props dc n = .ok ((ds, dc'), n')) :
    Drawn n n' (ds.map fun p => p.decl.id) := by
  rw [List.map_eq_flatMap]
  refine (drawn_declEach (I := fun _ => True) (fun {x dc n d dc' n'} _ h => ?_) trivial h).2
  obtain ⟨decl, n₁, hdecl, h⟩ := bind_eq_ok.1 h
  obtain ⟨heq, rfl⟩ := pure_eq_ok.1 h
  obtain ⟨rfl, -⟩ := Prod.mk.inj heq
  exact ⟨trivial, drawn_create hdecl⟩

lemma drawn_declProtocolNames {protocols : List Protocol} {ds : List NamedDecl}
    (h : declProtocolNames protocols n = .ok (ds, n')) : Drawn n n' (ds.map NamedDecl.id) := by
  induction protocols generalizing n n' ds with
  | nil =>
      obtain ⟨rfl, rfl⟩ := pure_eq_ok.1 h
      exact .nil le_rfl
  | cons proto protocols ih =>
      obtain ⟨decl, n₁, hdecl, h⟩ := bind_eq_ok.1 h
      obtain ⟨decls, n₂, hdecls, h⟩ := bind_eq_ok.1 h
      obtain ⟨rfl, rfl⟩ := pure_eq_ok.1 h
      exact (drawn_create hdecl).append (ih hdecls)

lemma drawn_generate {demangle : Str → Str} {cls : Class Protocol} {d : InterfaceDecl}
    (h : generate demangle cls n = .ok (d, n')) : Drawn n n' d.ids := by
  obtain ⟨unit, n₁, hunit, h⟩ := bind_eq_ok.1 h
  obtain ⟨⟨decl, dc⟩, n₂, hdecl, h⟩ := bind_eq_ok.1 h
  obtain ⟨rfl, rfl⟩ := pure_eq_ok.1 h
  obtain ⟨clsDecl, m₁, hcls, hdecl⟩ := bind_eq_ok.1 hdecl
  obtain ⟨protocols, m₂, hprotocols, hdecl⟩ := bind_eq_ok.1 hdecl
  obtain ⟨⟨methods, inside⟩, m₃, hmethods, hdecl⟩ := bind_eq_ok.1 hdecl
  obtain ⟨⟨ivars, inside'⟩, m₄, hivars, hdecl⟩ := bind_eq_ok.1 hdecl
  obtain ⟨⟨properties, inside''⟩, m₅, hproperties, hdecl⟩ := bind_eq_ok.1 hdecl
  obtain ⟨heq, rfl⟩ := pure_eq_ok.1 hdecl
  obtain ⟨rfl, -⟩ := Prod.mk.inj heq
  obtain ⟨⟨-, hholds⟩, hdrawn⟩ := drawn_declMethods clsDecl ⟨rfl, holds_inner unit clsDecl⟩ hmethods
  -- the identity of the unit is drawn before all others
  have hunit' : Drawn n n₁ [] := .nil (drawn_create hunit).le
  have hnames := (drawn_create hcls).append (drawn_declProtocolNames hprotocols)
  exact hunit'.append (((hnames.append hdrawn).append (drawn_declIvars hholds hivars)).append
    (drawn_declProperties hproperties))

lemma drawn_generateProtocol {proto : Protocol} {d : ProtocolDecl}
    (h : generateProtocol proto n = .ok (d, n')) : Drawn n n' d.ids := by
  obtain ⟨unit, n₁, hunit, h⟩ := bind_eq_ok.1 h
  obtain ⟨⟨decl, dc⟩, n₂, hdecl, h⟩ := bind_eq_ok.1 h
  obtain ⟨rfl, rfl⟩ := pure_eq_ok.1 h
  obtain ⟨protocolDecl, m₁, hprotocol, hdecl⟩ := bind_eq_ok.1 hdecl
  obtain ⟨⟨optMethods, inside⟩, m₂, hopt, hdecl⟩ := bind_eq_ok.1 hdecl
  obtain ⟨⟨requiredMethods, inside'⟩, m₃, hrequired, hdecl⟩ := bind_eq_ok.1 hdecl
  obtain ⟨⟨properties, inside''⟩, m₄, hproperties, hdecl⟩ := bind_eq_ok.1 hdecl
  obtain ⟨heq, rfl⟩ := pure_eq_ok.1 hdecl
  obtain ⟨rfl, -⟩ := Prod.mk.inj heq
  obtain ⟨hinside, hdrawn⟩ :=
    drawn_declMethods protocolDecl ⟨rfl, holds_inner unit protocolDecl⟩ hopt
  obtain ⟨-, hdrawn'⟩ := drawn_declMethods protocolDecl hinside hrequired
  have hunit' : Drawn n n₁ [] := .nil (drawn_create hunit).le
  have hall := hunit'.append ((((drawn_create hprotocol).append (hdrawn.append hdrawn'))).append
    (drawn_declProperties hproperties))
  simpa [ProtocolDecl.ids, List.flatMap_map] using hall

lemma drawn_generateEach {α δ : Type} {generate : α → ASTGen δ} {ids : δ → List ℕ}
    (h : ∀ {x n d n'}, generate x n = .ok (d, n') → Drawn n n' (ids d)) {xs : List α} {ds : List δ}
    (hrun : generateEach generate xs n = .ok (ds, n')) : Drawn n n' (ds.flatMap ids) := by
  induction xs generalizing n n' ds with
  | nil =>
      obtain ⟨rfl, rfl⟩ := pure_eq_ok.1 hrun
      exact .nil le_rfl
  | cons x xs ih =>
      obtain ⟨d, n₁, hd, hrun⟩ := bind_eq_ok.1 hrun
      obtain ⟨ds', n₂, hds, hrun⟩ := bind_eq_ok.1 hrun
      obtain ⟨rfl, rfl⟩ := pure_eq_ok.1 hrun
      exact (h hd).append (ih hds)

/-- **No declaration is used twice** in what is made for a whole image: all its declarations, and
all declarations that its types refer to, apart from the class that a method belongs to, are
different ones. -/
theorem toDecl_nodup {demangle : Str → Str} {store : Store} {n n' : ℕ}
    {ds : List ProtocolDecl × List InterfaceDecl} (hrun : toDecl demangle store n = .ok (ds, n')) :
    (ds.1.flatMap ProtocolDecl.ids ++ ds.2.flatMap InterfaceDecl.ids).Nodup := by
  obtain ⟨protocols, n₁, hprotocols, hrun⟩ := bind_eq_ok.1 hrun
  obtain ⟨interfaces, n₂, hinterfaces, hrun⟩ := bind_eq_ok.1 hrun
  obtain ⟨rfl, -⟩ := pure_eq_ok.1 hrun
  refine ((drawn_generateEach (fun h => drawn_generateProtocol h) hprotocols).append
    (drawn_generateEach (fun {cls n d n'} h => ?_) hinterfaces)).nodup
  rw [generatePointing] at h
  cases hprotocols : cls.protocols.mapM id with
  | none =>
      rw [hprotocols] at h
      cases h
  | some protocols =>
      rw [hprotocols] at h
      exact drawn_generate h

/-- The types `NSObject` of the methods of `P` are different ones. -/
theorem toDecl_nodup_adopting : ∃ ds n', toDecl id adoptingStore 0 = .ok (ds, n') ∧
    (ds.1.flatMap ProtocolDecl.ids ++ ds.2.flatMap InterfaceDecl.ids).Nodup := by
  obtain ⟨⟨ds, n'⟩, hrun⟩ : ∃ r, toDecl id adoptingStore 0 = .ok r := ⟨_, rfl⟩
  exact ⟨ds, n', hrun, toDecl_nodup hrun⟩

end ASTGen

end ICDump
