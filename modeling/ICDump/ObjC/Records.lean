/-
Methods, instance variables, properties and protocols (`Method.cpp`, `IVar.cpp`,
`Property.cpp`, `Protocol.cpp`).

Each `create` reads one record at the position of the stream.  All of them leave the
stream where they found it, whether they succeed or not, so what they make is a function
of the image and the position alone: `BinaryStream.value`.
-/
import ICDump.ObjC.Layout
import ICDump.Encoding.Types

namespace ICDump

/-- `Parser::decode_ptr`. -/
def decodePtr (bin : Binary) (ptr : UInt64) : UInt64 :=
  let decoded := ptr &&& ((1 : UInt64) <<< 51 - 1)
  if 0 < bin.imagebase ∧ decoded < bin.imagebase then decoded + bin.imagebase else decoded

/-! ### Methods -/

/-- `Method`. -/
structure Method where
  name : Str
  mangledType : Str
  addr : UInt64
  isInstance : Bool
deriving DecidableEq, Repr

/-- The name of a small method, through the pointer to it if that could be read. -/
def Method.peekName (bin : Binary) : Option UInt64 → BinaryStream (Option Str)
  | some strPtr => BinaryStream.peekStringAt bin (decodePtr bin strPtr)
  | none => return none

/-- `Method::create` on a `small_method_t`: each offset is relative to the method, the offset of
the type to its own field, and the name is reached through a pointer. -/
def Method.createSmall (bin : Binary) : BinaryStream (Option Method) := do
  let pos ← BinaryStream.pos
  let some rawMethod ← BinaryStream.peek SmallMethodT bin | return none
  let strPtr ← BinaryStream.peekAt UInt64 bin (pos + rawMethod.name.toInt64.toUInt64)
  let name ← Method.peekName bin strPtr
  let mangledType ← BinaryStream.peekStringAt bin (pos + 4 + rawMethod.types.toInt64.toUInt64)
  return some
    { name := name.getD [], mangledType := mangledType.getD []
      addr := rawMethod.imp.toInt64.toUInt64, isInstance := true }

/-- `Method::create` on a `big_method_t`. -/
def Method.createBig (bin : Binary) : BinaryStream (Option Method) := do
  let some rawMethod ← BinaryStream.peek BigMethodT bin | return none
  let name ← BinaryStream.peekStringAt bin (decodePtr bin rawMethod.name)
  let mangledType ← BinaryStream.peekStringAt bin (decodePtr bin rawMethod.types)
  return some
    { name := name.getD [], mangledType := mangledType.getD []
      addr := rawMethod.imp, isInstance := true }

/-- `Method::create`. -/
def Method.create (bin : Binary) (isSmall : Bool) : BinaryStream (Option Method) :=
  if isSmall then Method.createSmall bin else Method.createBig bin

/-- The size of a method in a list. -/
def sizeofMeth (isSmall : Bool) : UInt64 :=
  if isSmall then Layout.size SmallMethodT else Layout.size BigMethodT

/-- `Method::create` followed by the assignment to `is_instance_`. -/
def Method.createWith (bin : Binary) (isSmall isInstance : Bool) :
    BinaryStream (Option Method) := do
  let method ← Method.create bin isSmall
  return method.map fun m => { m with isInstance := isInstance }

/-! ### Instance variables and properties -/

/-- `IVar`. -/
structure IVar where
  name : Str
  mangledType : Str
deriving DecidableEq, Repr

/-- `IVar::create`. -/
def IVar.create (bin : Binary) : BinaryStream (Option IVar) := do
  let some rawIvar ← BinaryStream.peek IvarT bin | return none
  let name ← BinaryStream.peekStringAt bin (decodePtr bin rawIvar.name)
  let mangledType ← BinaryStream.peekStringAt bin (decodePtr bin rawIvar.type)
  return some { name := name.getD [], mangledType := mangledType.getD [] }

/-- `Property`. -/
structure Property where
  name : Str
  attributes : Str
deriving DecidableEq, Repr

/-- `Property::create`. -/
def Property.create (bin : Binary) : BinaryStream (Option Property) := do
  let some rawProp ← BinaryStream.peek PropertyT bin | return none
  let name ← BinaryStream.peekStringAt bin (decodePtr bin rawProp.name)
  let attributes ← BinaryStream.peekStringAt bin (decodePtr bin rawProp.attributes)
  return some { name := name.getD [], attributes := attributes.getD [] }

/-- The block on `base_properties` of a class and on `instance_properties` of a protocol. -/
def readProperties (bin : Binary) (ptr : UInt64) : BinaryStream (List Property) :=
  if ptr = 0 then return []
  else BinaryStream.scopedStream (decodePtr bin ptr) do
    let some propList ← BinaryStream.read CountedListT bin | return []
    let propsAddr ← BinaryStream.pos
    BinaryStream.createEach (Property.create bin) propsAddr (Layout.size PropertyT) 0
      propList.count.toNat

/-! ### Protocols -/

/-- `Protocol`. -/
structure Protocol where
  mangledName : Str
  optMethods : List Method
  requiredMethods : List Method
  properties : List Property
deriving DecidableEq, Repr

/-- The four blocks of `Protocol::create` on the lists of methods. -/
def Protocol.readMethods (bin : Binary) (ptr : UInt64) (isInstance : Bool) :
    BinaryStream (List Method) :=
  if ptr = 0 then return []
  else BinaryStream.scopedStream (decodePtr bin ptr) do
    let some methodList ← BinaryStream.read MethodListT bin | return []
    let methodsAddr ← BinaryStream.pos
    BinaryStream.createEach (Method.createWith bin methodList.isSmall isInstance) methodsAddr
      (sizeofMeth methodList.isSmall) 0 methodList.count.toNat

/-- `Protocol::create`. -/
def Protocol.create (bin : Binary) : BinaryStream (Option Protocol) := do
  let some rawProto ← BinaryStream.peek ProtocolT bin | return none
  let mangledName ← BinaryStream.peekStringAt bin (decodePtr bin rawProto.mangledName)
  let instanceMethods ← Protocol.readMethods bin rawProto.instanceMethods true
  let classMethods ← Protocol.readMethods bin rawProto.classMethods false
  let optInstanceMethods ← Protocol.readMethods bin rawProto.optionalInstanceMethods true
  let optClassMethods ← Protocol.readMethods bin rawProto.optionalClassMethods false
  let properties ← readProperties bin rawProto.instanceProperties
  return some
    { mangledName := mangledName.getD []
      optMethods := optInstanceMethods ++ optClassMethods
      requiredMethods := instanceMethods ++ classMethods
      properties := properties }

/-! ### The position is left alone -/

open BinaryStream

lemma Method.peekName_restores (bin : Binary) (strPtr : Option UInt64) :
    Restores (Method.peekName bin strPtr) := by
  cases strPtr with
  | none => exact restores_pure none
  | some strPtr => exact restores_peekStringAt _

lemma Method.createSmall_restores (bin : Binary) : Restores (Method.createSmall bin) := by
  refine restores_pos.bind fun pos => restores_peek.bind fun rawMethod => ?_
  cases rawMethod with
  | none => exact restores_pure none
  | some rawMethod =>
      exact (restores_peekAt _).bind fun strPtr => (Method.peekName_restores bin strPtr).bind
        fun _ => (restores_peekStringAt _).bind fun _ => restores_pure _

lemma Method.createBig_restores (bin : Binary) : Restores (Method.createBig bin) := by
  refine restores_peek.bind fun rawMethod => ?_
  cases rawMethod with
  | none => exact restores_pure none
  | some rawMethod =>
      exact (restores_peekStringAt _).bind fun _ => (restores_peekStringAt _).bind fun _ =>
        restores_pure _

lemma Method.create_restores (bin : Binary) (isSmall : Bool) :
    Restores (Method.create bin isSmall) := by
  rw [Method.create]
  split
  · exact Method.createSmall_restores bin
  · exact Method.createBig_restores bin

lemma IVar.create_restores (bin : Binary) : Restores (IVar.create bin) := by
  refine restores_peek.bind fun rawIvar => ?_
  cases rawIvar with
  | none => exact restores_pure none
  | some rawIvar =>
      exact (restores_peekStringAt _).bind fun _ => (restores_peekStringAt _).bind fun _ =>
        restores_pure _

lemma Property.create_restores (bin : Binary) : Restores (Property.create bin) := by
  refine restores_peek.bind fun rawProp => ?_
  cases rawProp with
  | none => exact restores_pure none
  | some rawProp =>
      exact (restores_peekStringAt _).bind fun _ => (restores_peekStringAt _).bind fun _ =>
        restores_pure _

lemma readProperties_restores (bin : Binary) (ptr : UInt64) :
    Restores (readProperties bin ptr) := by
  rw [readProperties]
  split
  · exact restores_pure []
  · exact restores_scopedStream _ _

lemma Protocol.readMethods_restores (bin : Binary) (ptr : UInt64) (isInstance : Bool) :
    Restores (Protocol.readMethods bin ptr isInstance) := by
  rw [Protocol.readMethods]
  split
  · exact restores_pure []
  · exact restores_scopedStream _ _

/-- **Reading a protocol leaves the stream where it was**, also when it fails. -/
theorem Protocol.create_restores (bin : Binary) : Restores (Protocol.create bin) := by
  refine restores_peek.bind fun rawProto => ?_
  cases rawProto with
  | none => exact restores_pure none
  | some rawProto =>
      exact (restores_peekStringAt _).bind fun _ =>
        (Protocol.readMethods_restores bin _ _).bind fun _ =>
        (Protocol.readMethods_restores bin _ _).bind fun _ =>
        (Protocol.readMethods_restores bin _ _).bind fun _ =>
        (Protocol.readMethods_restores bin _ _).bind fun _ =>
        (readProperties_restores bin _).bind fun _ => restores_pure _

end ICDump
