/-
The structures of the Objective-C runtime (`Types.hpp`).

Every structure has the fields that the parser reads, at the offsets that the compiler
gives them on a 64-bit target, and its whole size.
-/
import ICDump.Image.Stream

namespace ICDump

/-- `objc_class_t`. -/
structure ObjcClassT where
  superClass : UInt64
  /-- `class_data_bits_t`. -/
  bits : UInt64
deriving DecidableEq

instance : Layout ObjcClassT where
  size := 0x28
  ofBytes byte := { superClass := word64 byte 0, bits := word64 byte 0x20 }

namespace ObjcClassT

/-- `class_data_bits_t::FAST_DATA_MASK`. -/
def fastDataMask : UInt64 := 0x00007ffffffffff8

/-- `class_data_bits_t::class_ro_ptr`. -/
def classRoPtr (cls : ObjcClassT) : UInt64 := cls.bits &&& fastDataMask

/-- `class_data_bits_t::class_ro_ptr2`.  The pointer is followed in the process itself: it is
taken for a `class_rw_t`, whose word at offset 8 is a pointer to a `class_ro_t`, or, with its
lowest bit set, to a `class_rw_ext_t`. -/
def classRoPtr2 (bin : Binary) (cls : ObjcClassT) : UInt64 :=
  let value := bin.hostWord (cls.classRoPtr + 8)
  if value &&& 1 = 1 then bin.hostWord (value &&& ~~~1) else value &&& ~~~1

end ObjcClassT

/-- `class_ro_t`. -/
structure ClassRoT where
  flags : UInt32
  instanceStart : UInt32
  instanceSize : UInt32
  reserved : UInt32
  name : UInt64
  baseMethodList : UInt64
  baseProtocols : UInt64
  ivars : UInt64
  baseProperties : UInt64
deriving DecidableEq

instance : Layout ClassRoT where
  size := 72
  ofBytes byte :=
    { flags := word32 byte 0
      instanceStart := word32 byte 4
      instanceSize := word32 byte 8
      reserved := word32 byte 12
      name := word64 byte 24
      baseMethodList := word64 byte 32
      baseProtocols := word64 byte 40
      ivars := word64 byte 48
      baseProperties := word64 byte 64 }

/-- `protocol_t`. -/
structure ProtocolT where
  mangledName : UInt64
  instanceMethods : UInt64
  classMethods : UInt64
  optionalInstanceMethods : UInt64
  optionalClassMethods : UInt64
  instanceProperties : UInt64

instance : Layout ProtocolT where
  size := 72
  ofBytes byte :=
    { mangledName := word64 byte 8
      instanceMethods := word64 byte 24
      classMethods := word64 byte 32
      optionalInstanceMethods := word64 byte 40
      optionalClassMethods := word64 byte 48
      instanceProperties := word64 byte 56 }

/-- `method_list_t`. -/
structure MethodListT where
  entsizeAndFlags : UInt32
  count : UInt32

instance : Layout MethodListT where
  size := 8
  ofBytes byte := { entsizeAndFlags := word32 byte 0, count := word32 byte 4 }

namespace MethodListT

/-- `method_list_t::FLAG_MASK`. -/
def flagMask : UInt32 := 0xffff0003

/-- `method_list_t::IS_SMALL`. -/
def isSmallFlag : UInt32 := 0x80000000

/-- `method_list_t::flags`. -/
def flags (list : MethodListT) : UInt32 := list.entsizeAndFlags &&& flagMask

/-- `flags() & IS_SMALL`. -/
def isSmall (list : MethodListT) : Bool := list.flags &&& isSmallFlag != 0

end MethodListT

/-- `ivars_list_t` and `properties_list_t`, of which only the count is read. -/
structure CountedListT where
  count : UInt32

instance : Layout CountedListT where
  size := 8
  ofBytes byte := { count := word32 byte 4 }

/-- `protocol_list_t`. -/
structure ProtocolListT where
  count : UInt64

instance : Layout ProtocolListT where
  size := 8
  ofBytes byte := { count := word64 byte 0 }

/-- `small_method_t`, three signed offsets. -/
structure SmallMethodT where
  name : Int32
  types : Int32
  imp : Int32

instance : Layout SmallMethodT where
  size := 12
  ofBytes byte :=
    { name := (word32 byte 0).toInt32, types := (word32 byte 4).toInt32
      imp := (word32 byte 8).toInt32 }

/-- `big_method_t`, three pointers. -/
structure BigMethodT where
  name : UInt64
  types : UInt64
  imp : UInt64

instance : Layout BigMethodT where
  size := 24
  ofBytes byte := { name := word64 byte 0, types := word64 byte 8, imp := word64 byte 16 }

/-- `ivar_t`. -/
structure IvarT where
  name : UInt64
  type : UInt64

instance : Layout IvarT where
  size := 32
  ofBytes byte := { name := word64 byte 8, type := word64 byte 16 }

/-- `property_t`. -/
structure PropertyT where
  name : UInt64
  attributes : UInt64

instance : Layout PropertyT where
  size := 16
  ofBytes byte := { name := word64 byte 0, attributes := word64 byte 8 }

end ICDump
