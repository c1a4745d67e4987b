/-
Protocols and classes, written and read.

`ProtocolSpec.value` and `ClassSpec.value` are the objects that a declaration describes.  Where the
writer has put a protocol, it is decoded (`emits_protocol`); where it has put a class, the chain of
first pointers that starts there is the one that was declared, and the class that is made along it
as well (`ChainAt.value`).
-/
import ICDump.ObjC.Parse
import ICDump.Writer.Lists

namespace ICDump

open Emit

/-! ### Declarations -/

/-- The instance variable that is declared. -/
def IvarSpec.value (ivar : IvarSpec) : IVar := ⟨ivar.name.chars, ivar.type.chars⟩

/-- The property that is declared. -/
def PropertySpec.value (prop : PropertySpec) : Property :=
  ⟨prop.name.chars, prop.attributes.chars⟩

/-- The properties of a list. -/
def propertyValues (props : List PropertySpec) : List Property := props.map PropertySpec.value

/-- The protocol that is declared. -/
def ProtocolSpec.value (proto : ProtocolSpec) : Protocol where
  mangledName := proto.mangledName.chars
  optMethods := proto.optionalInstanceMethods.elim [] (MethodListSpec.called true) ++
    proto.optionalClassMethods.elim [] (MethodListSpec.called false)
  requiredMethods := proto.instanceMethods.elim [] (MethodListSpec.called true) ++
    proto.classMethods.elim [] (MethodListSpec.called false)
  properties := proto.instanceProperties.elim [] propertyValues

/-- The methods in the list of a class. -/
def ClassRoSpec.methods {n : ℕ} (ro : ClassRoSpec n) : List Method :=
  ro.baseMethodList.elim [] MethodListSpec.methods

/-- `is_meta` of a declaration. -/
def ClassRoSpec.isMeta {n : ℕ} (ro : ClassRoSpec n) : Bool := ro.flags &&& metaFlag != 0

/-- The class that is declared, in an image with the given protocols: its own methods come behind
those of the classes that its first pointers lead to, which are all class methods. -/
def ClassSpec.value {n : ℕ} (protocols : Fin n → Protocol) (cls : ClassSpec n) :
    Class Protocol where
  name := cls.cls.name.chars
  flags := cls.cls.flags
  instanceStart := cls.cls.instanceStart
  instanceSize := cls.cls.instanceSize
  reserved := cls.cls.reserved
  protocols := cls.cls.baseProtocols.elim [] (List.map protocols)
  methods := (cls.metas.reverse.flatMap ClassRoSpec.methods).map (Method.withInstance false) ++
    cls.cls.methods.map (Method.withInstance !cls.cls.isMeta)
  ivars := cls.cls.ivars.elim [] (List.map IvarSpec.value)
  properties := cls.cls.baseProperties.elim [] propertyValues

variable {base : UInt64} {bin : Binary} {final : List UInt8} {form : PtrForm base}

/-! ### Protocols -/

section

variable (hbin : Shows bin base final)

include hbin

/-- A list with a count and entries that was written. -/
lemma emits_counted {α γ δ : Type} [Layout γ] [Record γ] {entry : α → Emit UInt8 γ}
    {R : α → γ → Prop} {create : BinaryStream (Option δ)} {value : α → δ}
    (hsize : 0 < (Layout.size γ).toNat) (h : ∀ x, Emits final (entry x) (R x))
    (hmake : ∀ x record a, R x record → bin.load γ a = some record →
      create.value a = some (value x)) (xs : List α) :
    Emits final (emitList (fun n => CountedListT.mk (.ofNat n)) entry xs)
      (At base (CountedAt bin create (Layout.size γ) (xs.map value))) := by
  refine (emits_list hbin rfl hsize h xs).mono ?_
  rintro off ⟨records, hrecords, hlt, hoff⟩
  refine hoff.mono fun a ha => ⟨_, ha.1, ?_, ha.2.of_records hrecords hmake⟩
  rw [List.length_map]
  exact toNat_count hlt

lemma emits_ivars (ivars : List IvarSpec) :
    Emits final (emitList (fun n => CountedListT.mk (.ofNat n)) (emitIvar form) ivars)
      (At base (CountedAt bin (IVar.create bin) (Layout.size IvarT)
        (ivars.map IvarSpec.value))) := by
  refine emits_counted hbin (by decide) (R := fun ivar raw =>
    bin.peekStringAt (decodePtr bin raw.name) = some ivar.name.chars ∧
      bin.peekStringAt (decodePtr bin raw.type) = some ivar.type.chars) (fun ivar => ?_) ?_ ivars
  · refine (emits_string hbin ivar.name).bind fun name => ?_
    refine (emits_string hbin ivar.type).map fun type htype hname => ?_
    exact ⟨hname.stored hbin.imagebase, htype.stored hbin.imagebase⟩
  · intro ivar raw a hraw hload
    rw [IVar.create, BinaryStream.value, BinaryStream.bind_apply, BinaryStream.peek_eq hload]
    show some (IVar.mk ((bin.peekStringAt (decodePtr bin raw.name)).getD [])
      ((bin.peekStringAt (decodePtr bin raw.type)).getD [])) = _
    rw [hraw.1, hraw.2]
    rfl

lemma emits_properties (props : List PropertySpec) :
    Emits final (emitProperties form props)
      (At base (CountedAt bin (Property.create bin) (Layout.size PropertyT)
        (propertyValues props))) := by
  refine emits_counted hbin (by decide) (R := fun prop raw =>
    bin.peekStringAt (decodePtr bin raw.name) = some prop.name.chars ∧
      bin.peekStringAt (decodePtr bin raw.attributes) = some prop.attributes.chars)
    (fun prop => ?_) ?_ props
  · refine (emits_string hbin prop.name).bind fun name => ?_
    refine (emits_string hbin prop.attributes).map fun attributes hattributes hname => ?_
    exact ⟨hname.stored hbin.imagebase, hattributes.stored hbin.imagebase⟩
  · intro prop raw a hraw hload
    rw [Property.value_create, Property.entryAt, hload, Option.map_some, hraw.1, hraw.2]
    rfl

end

/-- The protocol at an address, from its structure. -/
lemma protocolAt_of_load {a : UInt64} {raw : ProtocolT} (hload : bin.load ProtocolT a = some raw) :
    protocolAt bin a = some
      { mangledName := (bin.peekStringAt (decodePtr bin raw.mangledName)).getD []
        optMethods := methodsIn bin raw.optionalInstanceMethods true ++
          methodsIn bin raw.optionalClassMethods false
        requiredMethods := methodsIn bin raw.instanceMethods true ++
          methodsIn bin raw.classMethods false
        properties := (readProperties bin raw.instanceProperties).value 0 } := by
  rw [protocolAt, Protocol.create, BinaryStream.value, BinaryStream.bind_apply,
    BinaryStream.peek_eq hload]
  simp only [BinaryStream.bind_apply, BinaryStream.peekStringAt, Protocol.readMethods_eq,
    Class.readProperties_eq]
  rfl

section

variable (hbin : Shows bin base final)

include hbin

/-- The methods of a list of a protocol. -/
lemma methodsIn_storeOption {list : Option MethodListSpec} {off : Option ℕ}
    (h : Option.Rel (fun list => At base (MethodsAt bin list.methods)) list off)
    (isInstance : Bool) :
    methodsIn bin (form.storeOption off) isInstance =
      list.elim [] (MethodListSpec.called isInstance) :=
  read_storeOption h hbin.imagebase (fun ptr => methodsIn bin ptr isInstance) rfl
    fun _ _ hptr hmethods => methodsIn_eq hptr hmethods isInstance

/-- The properties of a protocol or a class. -/
lemma properties_storeOption {props : Option (List PropertySpec)} {off : Option ℕ}
    (h : Option.Rel (fun props => At base (CountedAt bin (Property.create bin)
      (Layout.size PropertyT) (propertyValues props))) props off) :
    (readProperties bin (form.storeOption off)).value 0 = props.elim [] propertyValues :=
  read_storeOption h hbin.imagebase (fun ptr => (readProperties bin ptr).value 0) rfl
    fun _ _ hptr hprops => value_readCounted hptr hprops 0

/-- A protocol that was written is read. -/
lemma emits_protocol (proto : ProtocolSpec) :
    Emits final (emitProtocol form proto)
      (At base fun a => protocolAt bin a = some proto.value) := by
  refine (emits_string hbin _).bind fun name => ?_
  refine (Emits.emitOption (emits_methodList hbin) _).bind fun instanceMethods => ?_
  refine (Emits.emitOption (emits_methodList hbin) _).bind fun classMethods => ?_
  refine (Emits.emitOption (emits_methodList hbin) _).bind fun optInstanceMethods => ?_
  refine (Emits.emitOption (emits_methodList hbin) _).bind fun optClassMethods => ?_
  refine (Emits.emitOption (emits_properties hbin) _).bind fun properties => ?_
  refine (emits_record hbin (by decide) _).mono ?_
  intro off hoff hproperties hoptClass hoptInstance hclass hinstance hname
  refine hoff.1.mono fun a ha => (protocolAt_of_load ha).trans ?_
  rw [hname.stored hbin.imagebase, methodsIn_storeOption hbin hinstance,
    methodsIn_storeOption hbin hclass, methodsIn_storeOption hbin hoptInstance,
    methodsIn_storeOption hbin hoptClass, properties_storeOption hbin hproperties]
  rfl

end

/-! ### One class -/

/-- What is made of the structures of a class. -/
def ClassRoSpec.build {n : ℕ} {P : Type} (ro : ClassRoSpec n) (super : Option (Class P))
    (protocols : List P) : Class P where
  name := ro.name.chars
  flags := ro.flags
  instanceStart := ro.instanceStart
  instanceSize := ro.instanceSize
  reserved := ro.reserved
  protocols := protocols
  methods := Class.superMethods super ++ ro.methods.map (Method.withInstance !ro.isMeta)
  ivars := ro.ivars.elim [] (List.map IvarSpec.value)
  properties := ro.baseProperties.elim [] propertyValues

/-- The address that is read from the slot for a protocol. -/
def protocolAddr {n : ℕ} (bin : Binary) (form : PtrForm base) (protocolOffs : List ℕ)
    (i : Fin n) : UInt64 :=
  decodePtr bin (form.store (protocolOffs.getD i 0))

/-- At an address there are the structures of a class, with the given first pointer. -/
def ClassAt {n : ℕ} (bin : Binary) (form : PtrForm base) (protocolOffs : List ℕ)
    (ro : ClassRoSpec n) (link : Option ℕ) (a : UInt64) : Prop :=
  ∃ h, Class.header bin a = some h ∧ h.clsObj.superClass = form.storeOption link ∧
    Class.slotsOf bin h.rawRo.baseProtocols =
      ro.baseProtocols.elim [] (List.map (protocolAddr bin form protocolOffs)) ∧
    ∀ (super : Option (Class Protocol)) protocols,
      Class.build bin h super protocols = ro.build super protocols

lemma header_of_load {a : UInt64} {clsObj : ObjcClassT} {rawRo : ClassRoT} {name : Str}
    (hcls : bin.load ObjcClassT a = some clsObj)
    (hro : bin.load ClassRoT (decodePtr bin clsObj.classRoPtr) = some rawRo)
    (hname : bin.peekStringAt (decodePtr bin rawRo.name) = some name) :
    Class.header bin a = some ⟨clsObj, rawRo, name⟩ := by
  have hpeek : Class.peekRo bin clsObj a = (some rawRo, a) := by
    rw [Class.peekRo, BinaryStream.bind_apply, BinaryStream.peekAt, hro]
    rfl
  rw [Class.header, Class.readHeader, BinaryStream.value, BinaryStream.bind_apply,
    BinaryStream.peek_eq hcls]
  show ((Class.peekRo bin clsObj >>= _) a).1 = _
  rw [BinaryStream.bind_apply, hpeek]
  show ((BinaryStream.peekStringAt bin (decodePtr bin rawRo.name) >>= _) a).1 = _
  rw [BinaryStream.bind_apply, BinaryStream.peekStringAt, hname]
  rfl

/-- The slots of a list that was written. -/
lemma slotsFrom_eq {words : List UInt64} {a : UInt64} (h : EntriesAt (bin.load UInt64) 8 a words) :
    Class.slotsFrom bin words.length a = words.map (decodePtr bin) := by
  induction h with
  | nil => rfl
  | cons hx _ ih => rw [List.length_cons, Class.slotsFrom, hx, ih, List.map_cons]

section

variable (hbin : Shows bin base final)

include hbin

lemma emits_protocolList {n : ℕ} (protocolOffs : List ℕ) (ps : List (Fin n)) :
    Emits final (emitList (fun n => ProtocolListT.mk (.ofNat n)) (fun i : Fin n =>
        return form.store (protocolOffs.getD i 0)) ps)
      (At base fun a => ∃ list, bin.load ProtocolListT a = some list ∧
        Class.slotsFrom bin list.count.toNat (a + 8) =
          ps.map (protocolAddr bin form protocolOffs)) := by
  refine (emits_list (β := ProtocolListT) hbin rfl (by decide)
    (R := fun (i : Fin n) word => word = form.store (protocolOffs.getD i 0)) (fun _ => .pure rfl)
    ps).mono ?_
  rintro off ⟨words, hwords, hlt, hoff⟩
  refine hoff.mono fun a ha => ⟨_, ha.1, ?_⟩
  have hcount : (ProtocolListT.mk (.ofNat ps.length)).count.toNat = words.length :=
    (toNat_ofNat (hlt.trans (by decide))).trans hwords.length_eq
  rw [hcount, slotsFrom_eq ha.2]
  have hmap : ps.map (fun i : Fin n => form.store (protocolOffs.getD i 0)) = words := by
    have heq : List.Forall₂ (fun (i : Fin n) word => form.store (protocolOffs.getD i 0) = word)
        ps words :=
      hwords.imp fun _ _ h => h.symm
    rwa [← List.forall₂_map_left_iff, List.forall₂_eq_eq_eq] at heq
  rw [← hmap, List.map_map]
  rfl

/-- The slots of a list of protocols of a class. -/
lemma slotsOf_storeOption {n : ℕ} {protocolOffs : List ℕ} {ps : Option (List (Fin n))}
    {off : Option ℕ} (h : Option.Rel (fun ps => At base fun a => ∃ list,
      bin.load ProtocolListT a = some list ∧ Class.slotsFrom bin list.count.toNat (a + 8) =
        ps.map (protocolAddr bin form protocolOffs)) ps off) :
    Class.slotsOf bin (form.storeOption off) =
      ps.elim [] (List.map (protocolAddr bin form protocolOffs)) := by
  refine read_storeOption h hbin.imagebase _ rfl fun ps ptr hptr hslots => ?_
  obtain ⟨list, hload, hslots⟩ := hslots
  rw [Class.slotsOf, if_neg hptr, hload]
  exact hslots

/-- The methods of a list of a class. -/
lemma methodsAt_storeOption {list : Option MethodListSpec} {off : Option ℕ}
    (h : Option.Rel (fun list => At base (MethodsAt bin list.methods)) list off) :
    Class.methodsAt bin (form.storeOption off) = list.elim [] MethodListSpec.methods :=
  read_storeOption h hbin.imagebase _ rfl fun _ _ hptr hmethods => methodsAt_eq hptr hmethods

/-- The instance variables of a class. -/
lemma ivars_storeOption {ivars : Option (List IvarSpec)} {off : Option ℕ}
    (h : Option.Rel (fun ivars => At base (CountedAt bin (IVar.create bin) (Layout.size IvarT)
      (ivars.map IvarSpec.value))) ivars off) :
    (Class.readIvars bin (form.storeOption off)).value 0 =
      ivars.elim [] (List.map IvarSpec.value) :=
  read_storeOption h hbin.imagebase (fun ptr => (Class.readIvars bin ptr).value 0) rfl
    fun _ _ hptr hivars => value_readCounted hptr hivars 0

/-- The structures of a class that was written. -/
lemma emits_classRo {n : ℕ} (protocolOffs : List ℕ) (ro : ClassRoSpec n) (link : Option ℕ) :
    Emits final (emitClassRo form protocolOffs ro link)
      (At base (ClassAt bin form protocolOffs ro link)) := by
  refine (emits_string hbin _).bind fun name => ?_
  refine (Emits.emitOption (emits_methodList hbin) _).bind fun methods => ?_
  refine (Emits.emitOption (emits_protocolList hbin protocolOffs) _).bind fun protocols => ?_
  refine (Emits.emitOption (emits_ivars hbin) _).bind fun ivars => ?_
  refine (Emits.emitOption (emits_properties hbin) _).bind fun properties => ?_
  refine (emits_record hbin (by decide) _).bind fun data => ?_
  refine (emits_record hbin (by decide) _).mono ?_
  rintro off ⟨hoff, -⟩ ⟨hdata, haligned⟩ hproperties hivars hprotocols hmethods hname
  have hro := hdata.there
  rw [← form.decode_storeData hdata.pos hdata.lt haligned hbin.imagebase] at hro
  refine hoff.mono fun a ha => ⟨_, header_of_load ha hro (hname.stored hbin.imagebase), rfl, ?_, ?_⟩
  · exact slotsOf_storeOption hbin hprotocols
  · intro super protocols
    rw [Class.build, ClassRoSpec.build, Class.ownMethods_eq]
    rw [methodsAt_storeOption hbin hmethods, ivars_storeOption hbin hivars,
      properties_storeOption hbin hproperties]
    rfl

end

/-! ### Chains of classes -/

/-- At the place there are classes, each of which leads to the next by its first pointer. -/
def ChainAt {n : ℕ} (bin : Binary) (form : PtrForm base) (protocolOffs : List ℕ) :
    List (ClassRoSpec n) → Option ℕ → Prop
  | [], start => start = none
  | ro :: chain, start => ∃ off link, start = some off ∧
      At base (ClassAt bin form protocolOffs ro link) off ∧
        ChainAt bin form protocolOffs chain link

/-- The class that is made along a chain. -/
def chainValue {n : ℕ} (protocols : Fin n → Protocol) :
    List (ClassRoSpec n) → Option (Class Protocol)
  | [] => none
  | ro :: chain =>
      some (ro.build (chainValue protocols chain) (ro.baseProtocols.elim [] (List.map protocols)))

/-- What is taken over from a chain are the methods of its lists. -/
lemma superMethods_chainValue {n : ℕ} (protocols : Fin n → Protocol)
    (chain : List (ClassRoSpec n)) :
    Class.superMethods (chainValue protocols chain) =
      (chain.reverse.flatMap ClassRoSpec.methods).map (Method.withInstance false) := by
  induction chain with
  | nil => rfl
  | cons ro chain ih =>
      rw [chainValue, Class.superMethods_some, ClassRoSpec.build, ih, List.map_append, List.map_map,
        List.map_map, Class.withInstance_withInstance, Class.withInstance_withInstance,
        ← List.map_append]
      simp

lemma chainValue_eq {n : ℕ} (protocols : Fin n → Protocol) (cls : ClassSpec n) :
    chainValue protocols (cls.cls :: cls.metas) = some (cls.value protocols) := by
  rw [chainValue, ClassRoSpec.build, superMethods_chainValue]
  rfl

section

variable {n : ℕ} {protocolOffs : List ℕ} {off off' : ℕ}

/-- Different places have different addresses. -/
lemma place_inj (h : off < 2 ^ 31) (h' : off' < 2 ^ 31)
    (heq : base + .ofNat off = base + .ofNat off') : off = off' := by
  have hoff := congrArg UInt64.toNat (UInt64.add_right_inj base |>.1 heq)
  rwa [toNat_ofNat (by omega), toNat_ofNat (by omega)] at hoff

/-- A chain that starts at a place has a class there. -/
lemma ChainAt.exists_cons {chain : List (ClassRoSpec n)}
    (h : ChainAt bin form protocolOffs chain (some off)) :
    ∃ ro rest link, chain = ro :: rest ∧ At base (ClassAt bin form protocolOffs ro link) off ∧
      ChainAt bin form protocolOffs rest link := by
  cases chain with
  | nil => exact absurd h (by simp [ChainAt])
  | cons ro rest =>
      obtain ⟨_, link, heq, hclass, hrest⟩ := h
      obtain rfl := Option.some.inj heq
      exact ⟨ro, rest, link, rfl, hclass, hrest⟩

/-- The slots of a declared list hold the declared protocols, and no others. -/
lemma filterMap_slots {protocols : Fin n → Protocol}
    (hprotocols : ∀ i, protocolAt bin (protocolAddr bin form protocolOffs i) = some (protocols i))
    (ps : Option (List (Fin n))) :
    (ps.elim [] (List.map (protocolAddr bin form protocolOffs))).filterMap (protocolAt bin) =
      ps.elim [] (List.map protocols) := by
  cases ps with
  | none => rfl
  | some ps =>
      show (ps.map _).filterMap _ = ps.map protocols
      rw [List.filterMap_map, ← List.filterMap_eq_map]
      exact congrArg (List.filterMap · ps) (funext hprotocols)

lemma mem_slots {ps : Option (List (Fin n))} :
    ∀ a ∈ ps.elim [] (List.map (protocolAddr bin form protocolOffs)),
      ∃ i : Fin n, a = protocolAddr bin form protocolOffs i := by
  cases ps with
  | none => exact List.forall_mem_nil _
  | some ps =>
      intro a ha
      obtain ⟨i, -, rfl⟩ := List.mem_map.1 ha
      exact ⟨i, rfl⟩

variable (hbase : bin.imagebase = base)

include hbase

/-- No class of a chain leads to itself. -/
lemma ChainAt.superClass_ne {chain : List (ClassRoSpec n)}
    (hchain : ChainAt bin form protocolOffs chain (some off)) {h : Class.Header}
    (hh : Class.header bin (base + .ofNat off) = some h) :
    h.clsObj.superClass ≠ form.store off := by
  induction chain generalizing off h with
  | nil => exact absurd hchain (by simp [ChainAt])
  | cons ro chain ih =>
      obtain ⟨_, _, link, heq, hclass, hrest⟩ := hchain.exists_cons
      obtain ⟨rfl, rfl⟩ := List.cons.inj heq
      obtain ⟨h', hh', hsuper, -, -⟩ := hclass.there
      obtain rfl := Option.some.inj (hh.symm.trans hh')
      rw [hsuper]
      cases link with
      | none => exact hclass.store_ne_zero.symm
      | some off' =>
          -- otherwise the next class would be this one, and lead to itself
          intro hstore
          obtain ⟨_, _, _, -, hclass', -⟩ := hrest.exists_cons
          have haddr : base + .ofNat off = base + .ofNat off' := by
            have hdecode : decodePtr bin (form.store off) = base + .ofNat off :=
              hclass.decode_store hbase
            rw [← hdecode, ← hstore]
            exact hclass'.decode_store hbase
          exact ih hrest (haddr ▸ hh) hsuper

/-- The class that the first pointer of a class of a chain leads to is the next. -/
lemma ChainAt.superLink {ro : ClassRoSpec n} {chain : List (ClassRoSpec n)}
    (hchain : ChainAt bin form protocolOffs (ro :: chain) (some off)) :
    ∃ link h, Class.superLink bin (base + .ofNat off) = link.map (fun o => base + .ofNat o) ∧
      ChainAt bin form protocolOffs chain link ∧ Class.header bin (base + .ofNat off) = some h ∧
      Class.slotsOf bin h.rawRo.baseProtocols =
        ro.baseProtocols.elim [] (List.map (protocolAddr bin form protocolOffs)) ∧
      ∀ (super : Option (Class Protocol)) protocols,
        Class.build bin h super protocols = ro.build super protocols := by
  obtain ⟨_, _, link, heq, hclass, hrest⟩ := hchain.exists_cons
  obtain ⟨rfl, rfl⟩ := List.cons.inj heq
  obtain ⟨h, hh, hsuper, hslots, hbuild⟩ := hclass.there
  refine ⟨link, h, ?_, hrest, hh, hslots, hbuild⟩
  have hlink : Class.superLink bin (base + .ofNat off) =
      if h.clsObj.superClass ≠ 0 ∧ decodePtr bin h.clsObj.superClass ≠ base + .ofNat off then
        some (decodePtr bin h.clsObj.superClass) else none := by
    rw [Class.superLink, hh]
    rfl
  rw [hlink, hsuper]
  cases link with
  | none => rw [if_neg (fun h => h.1 rfl), Option.map_none]
  | some off' =>
      obtain ⟨_, _, _, -, hclass', -⟩ := hrest.exists_cons
      have hdecode : decodePtr bin (form.storeOption (some off')) = base + .ofNat off' :=
        hclass'.decode_store hbase
      have hne : base + .ofNat off' ≠ base + .ofNat off := by
        intro haddr
        rw [place_inj hclass'.lt hclass.lt haddr] at hsuper
        exact hchain.superClass_ne hbase hh hsuper
      rw [hdecode, if_pos ⟨hclass'.store_ne_zero, hne⟩, Option.map_some]

/-- **The class at the start of a chain** is made of the whole chain, and asks for the protocols
that were declared. -/
lemma ChainAt.value {protocols : Fin n → Protocol}
    (hprotocols : ∀ i, protocolAt bin (protocolAddr bin form protocolOffs i) = some (protocols i))
    {chain : List (ClassRoSpec n)} (hchain : ChainAt bin form protocolOffs chain (some off)) :
    ∃ l, Link.chain (Class.superLink bin) chain.length (base + .ofNat off) = some l ∧
      Class.valueAlong bin l = chainValue protocols chain ∧
      ∀ a ∈ Parser.slotsAlong bin l, ∃ i : Fin n, a = protocolAddr bin form protocolOffs i := by
  induction chain generalizing off with
  | nil => exact absurd hchain (by simp [ChainAt])
  | cons ro chain ih =>
      obtain ⟨link, h, hlink, hrest, hh, hslots, hbuild⟩ := hchain.superLink hbase
      rw [← Class.slots_of_header hh] at hslots
      -- the rest of the chain, which is empty when there is no link
      obtain ⟨l, hl, hvalue, hrestmem⟩ : ∃ l,
          Link.chain (Class.superLink bin) (chain.length + 1) (base + .ofNat off) =
            some ((base + .ofNat off) :: l) ∧ Class.valueAlong bin l = chainValue protocols chain ∧
          ∀ a ∈ Parser.slotsAlong bin l, ∃ i : Fin n, a = protocolAddr bin form protocolOffs i := by
        cases link with
        | none =>
            have hnil : chain = [] := by
              cases chain with
              | nil => rfl
              | cons ro' chain => exact absurd hrest (by simp [ChainAt])
            subst hnil
            exact ⟨[], Link.chain_succ_of_none hlink _, rfl, fun a ha => absurd ha (by
              simp [Parser.slotsAlong])⟩
        | some off' =>
            obtain ⟨l, hl, hvalue, hrestmem⟩ := ih hrest
            exact ⟨l, by rw [Link.chain_succ_of_some hlink, hl, Option.map_some], hvalue, hrestmem⟩
      refine ⟨_, hl, ?_, ?_⟩
      · rw [Class.valueAlong, hh, Option.map_some, hvalue, hslots, filterMap_slots hprotocols,
          hbuild, chainValue]
      · intro a ha
        rw [Parser.slotsAlong_cons, List.mem_append, hslots] at ha
        exact ha.elim (hrestmem a) (mem_slots a)

end

end ICDump
