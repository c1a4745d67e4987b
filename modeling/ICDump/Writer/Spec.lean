/-
The metadata of an image, and how it is laid out.

`ImageSpec` is what a program declares: its protocols and classes, without addresses.  The writer
lays it out as a compiler does.  What a structure points to is written before the structure, so
all pointers are known when they are stored; they are stored in one of the forms of `PtrForm`.
Lists may be absent, which is a null pointer, and lists of methods have one of two formats.
-/
import ICDump.Library.Emit
import ICDump.ObjC.Parser
import ICDump.Writer.Image

namespace ICDump

open Emit

/-! ### Pointers -/

/-- A way to store pointers into an image at `base`: what is stored for a place in the image, and
what is stored in `class_data_bits_t`, are decoded to its address. -/
structure PtrForm (base : UInt64) where
  store : ℕ → UInt64
  storeData : ℕ → UInt64
  store_ne_zero : ∀ {off : ℕ}, 0 < off → off < 2 ^ 31 → store off ≠ 0
  decode_store : ∀ {off : ℕ}, 0 < off → off < 2 ^ 31 → ∀ {bin : Binary}, bin.imagebase = base →
    decodePtr bin (store off) = base + .ofNat off
  decode_storeData : ∀ {off : ℕ}, 0 < off → off < 2 ^ 31 → off % 8 = 0 → ∀ {bin : Binary},
    bin.imagebase = base →
      decodePtr bin (storeData off &&& ObjcClassT.fastDataMask) = base + .ofNat off

/-- What is stored for a pointer that may be null. -/
def PtrForm.storeOption {base : UInt64} (form : PtrForm base) : Option ℕ → UInt64
  | none => 0
  | some off => form.store off

/-! ### Metadata -/

/-- A method in a list, with the word that is stored for its implementation: an offset in a small
method, a pointer in the others.  It is not the address of the implementation. -/
structure MethodSpec (T : Type) where
  name : CString
  type : CString
  imp : T

/-- A list of methods, in one of the two formats. -/
inductive MethodListSpec
  | small (methods : List (MethodSpec Int32))
  | big (methods : List (MethodSpec UInt64))

/-- An instance variable. -/
structure IvarSpec where
  name : CString
  type : CString

/-- A property. -/
structure PropertySpec where
  name : CString
  attributes : CString

/-- A protocol. -/
structure ProtocolSpec where
  mangledName : CString
  instanceMethods : Option MethodListSpec
  classMethods : Option MethodListSpec
  optionalInstanceMethods : Option MethodListSpec
  optionalClassMethods : Option MethodListSpec
  instanceProperties : Option (List PropertySpec)

/-- A class or a metaclass of an image with `n` protocols. -/
structure ClassRoSpec (n : ℕ) where
  name : CString
  flags : UInt32
  instanceStart : UInt32
  instanceSize : UInt32
  reserved : UInt32
  baseMethodList : Option MethodListSpec
  baseProtocols : Option (List (Fin n))
  ivars : Option (List IvarSpec)
  baseProperties : Option (List PropertySpec)

/-- A class, and those that its first pointers lead to, one after the other. -/
structure ClassSpec (n : ℕ) where
  cls : ClassRoSpec n
  metas : List (ClassRoSpec n)

/-- The metadata of an image. -/
structure ImageSpec where
  protocols : List ProtocolSpec
  classes : List (ClassSpec protocols.length)

/-! ### The writer -/

variable {base : UInt64}

/-- Write a string. -/
def emitString (s : CString) : Emit UInt8 ℕ := emit fun _ => s.bytes

/-- Write a structure at a multiple of eight. -/
def emitRecord {α : Type} [Layout α] [Record α] (x : α) : Emit UInt8 ℕ :=
  emitAligned 0 8 fun _ => Record.bytes x

/-- Write a list: first what its entries point to, then its header and the entries. -/
def emitList {α β γ : Type} [Layout β] [Record β] [Layout γ] [Record γ] (header : ℕ → β)
    (entry : α → Emit UInt8 γ) (xs : List α) : Emit UInt8 ℕ := do
  let entries ← emitEach entry xs
  emitAligned 0 8 fun _ => Record.bytes (header entries.length) ++ entries.flatMap Record.bytes

/-- A `big_method_t`. -/
def emitBigEntry (form : PtrForm base) (meth : MethodSpec UInt64) : Emit UInt8 BigMethodT := do
  let name ← emitString meth.name
  let types ← emitString meth.type
  return ⟨form.store name, form.store types, meth.imp⟩

/-- The slot with the pointer to the name of a small method, and its type. -/
def emitSmallParts (form : PtrForm base) (meth : MethodSpec Int32) :
    Emit UInt8 (ℕ × ℕ × Int32) := do
  let name ← emitString meth.name
  let slot ← emitRecord (form.store name)
  let types ← emitString meth.type
  return (slot, types, meth.imp)

/-- The offset from a field to a place. -/
def offsetTo (field target : ℕ) : Int32 := .ofInt (target - field)

/-- The `small_method_t` at a place.  The offset of the type is relative to its own field. -/
def smallEntry (pos : ℕ) (parts : ℕ × ℕ × Int32) : SmallMethodT :=
  ⟨offsetTo pos parts.1, offsetTo (pos + 4) parts.2.1, parts.2.2⟩

/-- Consecutive small methods from a place on. -/
def smallEntries (pos : ℕ) : List (ℕ × ℕ × Int32) → List SmallMethodT
  | [] => []
  | parts :: rest => smallEntry pos parts :: smallEntries (pos + 12) rest

/-- A list of methods. -/
def emitMethodList (form : PtrForm base) : MethodListSpec → Emit UInt8 ℕ
  | .big methods => emitList (fun n => MethodListT.mk 24 (.ofNat n)) (emitBigEntry form) methods
  | .small methods => do
    let parts ← emitEach (emitSmallParts form) methods
    emitAligned 0 8 fun pos =>
      Record.bytes (MethodListT.mk 0x8000000c (.ofNat parts.length)) ++
        (smallEntries (pos + 8) parts).flatMap Record.bytes

/-- An `ivar_t`. -/
def emitIvar (form : PtrForm base) (ivar : IvarSpec) : Emit UInt8 IvarT := do
  let name ← emitString ivar.name
  let type ← emitString ivar.type
  return ⟨form.store name, form.store type⟩

/-- A `property_t`. -/
def emitProperty (form : PtrForm base) (prop : PropertySpec) : Emit UInt8 PropertyT := do
  let name ← emitString prop.name
  let attributes ← emitString prop.attributes
  return ⟨form.store name, form.store attributes⟩

/-- A list of properties. -/
def emitProperties (form : PtrForm base) : List PropertySpec → Emit UInt8 ℕ :=
  emitList (fun n => CountedListT.mk (.ofNat n)) (emitProperty form)

/-- A `protocol_t`. -/
def emitProtocol (form : PtrForm base) (proto : ProtocolSpec) : Emit UInt8 ℕ := do
  let mangledName ← emitString proto.mangledName
  let instanceMethods ← emitOption (emitMethodList form) proto.instanceMethods
  let classMethods ← emitOption (emitMethodList form) proto.classMethods
  let optInstanceMethods ← emitOption (emitMethodList form) proto.optionalInstanceMethods
  let optClassMethods ← emitOption (emitMethodList form) proto.optionalClassMethods
  let properties ← emitOption (emitProperties form) proto.instanceProperties
  emitRecord
    { mangledName := form.store mangledName
      instanceMethods := form.storeOption instanceMethods
      classMethods := form.storeOption classMethods
      optionalInstanceMethods := form.storeOption optInstanceMethods
      optionalClassMethods := form.storeOption optClassMethods
      instanceProperties := form.storeOption properties : ProtocolT }

/-- A `class_ro_t` and the `objc_class_t` that leads to it.  The protocols are at `protocolOffs`,
and the first pointer leads to `link`. -/
def emitClassRo {n : ℕ} (form : PtrForm base) (protocolOffs : List ℕ) (ro : ClassRoSpec n)
    (link : Option ℕ) : Emit UInt8 ℕ := do
  let name ← emitString ro.name
  let methods ← emitOption (emitMethodList form) ro.baseMethodList
  let protocols ← emitOption (emitList (fun n => ProtocolListT.mk (.ofNat n)) fun i : Fin n =>
    return form.store (protocolOffs.getD i 0)) ro.baseProtocols
  let ivars ← emitOption (emitList (fun n => CountedListT.mk (.ofNat n)) (emitIvar form)) ro.ivars
  let properties ← emitOption (emitProperties form) ro.baseProperties
  let data ← emitRecord
    { flags := ro.flags
      instanceStart := ro.instanceStart
      instanceSize := ro.instanceSize
      reserved := ro.reserved
      name := form.store name
      baseMethodList := form.storeOption methods
      baseProtocols := form.storeOption protocols
      ivars := form.storeOption ivars
      baseProperties := form.storeOption properties : ClassRoT }
  emitRecord { superClass := form.storeOption link, bits := form.storeData data : ObjcClassT }

/-- The classes of a chain, the last first. -/
def emitChain {n : ℕ} (form : PtrForm base) (protocolOffs : List ℕ) :
    List (ClassRoSpec n) → Emit UInt8 (Option ℕ)
  | [] => return none
  | ro :: chain => do
    let link ← emitChain form protocolOffs chain
    let off ← emitClassRo form protocolOffs ro link
    return some off

/-- A class, behind those that its first pointers lead to. -/
def emitClass {n : ℕ} (form : PtrForm base) (protocolOffs : List ℕ) (cls : ClassSpec n) :
    Emit UInt8 ℕ := do
  let link ← emitChain form protocolOffs cls.metas
  emitClassRo form protocolOffs cls.cls link

/-- The protocols and classes of an image, and where they are. -/
def emitImage (form : PtrForm base) (spec : ImageSpec) : Emit UInt8 (List ℕ × List ℕ) := do
  let protocols ← emitEach (emitProtocol form) spec.protocols
  let classes ← emitEach (emitClass form protocols) spec.classes
  return (protocols, classes)

namespace ImageSpec

variable (spec : ImageSpec) (form : PtrForm base)

/-- The bytes that every image starts with, `MH_MAGIC_64`. -/
def magic : List UInt8 := [0xcf, 0xfa, 0xed, 0xfe]

/-- The places of the protocols and of the classes. -/
def places : List ℕ × List ℕ := (emitImage form spec magic).1

/-- The bytes of the image. -/
def memory : List UInt8 := (emitImage form spec magic).2

/-- The sections of the image: the lists of its protocols and classes, in the segment of the given
name. -/
def sections (segment : String) (seg name : String) : Option (List UInt8) :=
  if seg = segment then
    if name = "__objc_protolist" then
      some ((spec.places form).1.flatMap fun off => bytes64 (form.store off))
    else if name = "__objc_classlist" then
      some ((spec.places form).2.flatMap fun off => bytes64 (form.store off))
    else none
  else none

/-- The image. -/
def binary (segment : String) : Binary :=
  imageOf base (spec.sections form segment) (spec.memory form)

end ImageSpec

end ICDump
