/-
The parser (`Parser.cpp`, `Class.cpp`, `Metadata.cpp`).

The state is the position of the stream, the objects made so far and the maps that point
to them.  A pointer is the identity that an object gets when it is registered; the objects
are in the vectors of the metadata, and the maps hold pointers.  An object is registered
and the maps are updated in one step, an `Action`: the source does it in three consecutive
statements with nothing in between that looks.  The actions performed so far are kept in
`log`, which the source has no counterpart for; it is there so that one can speak about
every point of a run.

`Class::create` calls itself without a bound.  Here it has one, on its depth, and gives up
when that is used up; what a run does before that is what the source does.
-/
import ICDump.ObjC.Records
import ICDump.Library.Attempt
import ICDump.Library.Registry
import ICDump.Library.System

namespace ICDump

/-- The identity of an object. -/
abbrev Ptr : Type := ℕ

/-- `Class`.  Its protocols are pointers, `P = Ptr`, or, when classes are compared by value,
the protocols themselves. -/
structure Class (P : Type) where
  name : Str
  flags : UInt32
  instanceStart : UInt32
  instanceSize : UInt32
  reserved : UInt32
  protocols : List P
  methods : List Method
  ivars : List IVar
  properties : List Property
deriving DecidableEq

/-- The same class with its protocols replaced. -/
def Class.map {P Q : Type} (f : P → Q) (cls : Class P) : Class Q :=
  { cls with protocols := cls.protocols.map f }

/-- The flag `Class::META`. -/
def metaFlag : UInt32 := (1 : UInt32) <<< 0

/-- `Class::is_meta`. -/
def Class.isMeta {P : Type} (cls : Class P) : Bool := cls.flags &&& metaFlag != 0

/-- A protocol that is registered.  The source does not keep the address that it was decoded
from. -/
structure Registered where
  address : UInt64
  protocol : Protocol

/-- `Metadata`: `protocols_` with `protocol_lookup_`, and `classes_` with `classes_lookup_`. -/
structure Metadata where
  protocols : Registry Str Ptr Registered
  classes : Registry Str Ptr (Class Ptr)

/-- `Metadata::get_class`. -/
def Metadata.getClass (metadata : Metadata) (name : Str) : Option Ptr :=
  metadata.classes.lookup name

/-- `Metadata::get_protocol`. -/
def Metadata.getProtocol (metadata : Metadata) (name : Str) : Option Ptr :=
  metadata.protocols.lookup name

/-- What the parser has made so far: the metadata, the cache `protocols_`, and the next
identity to be given away. -/
structure Store where
  metadata : Metadata
  cache : UInt64 → Option Ptr
  next : Ptr

/-- The store of a parser that has just been constructed. -/
def Store.initial : Store := ⟨⟨Registry.empty, Registry.empty⟩, fun _ => none, 0⟩

/-- What changes the store. -/
inductive Action
  /-- `process_protocols` registers and caches the protocol that it read. -/
  | listProtocol (location : UInt64) (proto : Protocol)
  /-- `get_or_create_protocol` registers the protocol that it read. -/
  | createProtocol (offset : UInt64) (proto : Protocol)
  /-- `Class::create` adds a protocol to the class that it makes. -/
  | holdProtocol (proto : Ptr)
  /-- `process_classes` registers the class that it read. -/
  | appendClass (cls : Class Ptr)

/-- Register a protocol. -/
def Store.addProtocol (s : Store) (address : UInt64) (proto : Protocol) : Store :=
  { s with
    metadata.protocols := s.metadata.protocols.add proto.mangledName s.next ⟨address, proto⟩
    next := s.next + 1 }

/-- Do what an action does.  The class that a protocol is added to is not in the store yet. -/
def Store.apply (s : Store) : Action → Store
  | .listProtocol location proto =>
      { s.addProtocol location proto with cache := Function.update s.cache location (some s.next) }
  | .createProtocol offset proto => s.addProtocol offset proto
  | .holdProtocol _ => s
  | .appendClass cls =>
      { s with
        metadata.classes := s.metadata.classes.add cls.name s.next cls
        next := s.next + 1 }

/-- `Parser`. -/
structure Parser where
  /-- The position of `stream_`. -/
  pos : UInt64
  store : Store
  /-- The actions performed so far. -/
  log : List Action

/-- The parser that has just been constructed. -/
def Parser.initial : Parser := ⟨0, .initial, []⟩

/-- A computation on the parser. -/
abbrev ParserM (α : Type) : Type := Attempt Parser α

namespace ParserM

variable {α : Type}

/-- Compute on the stream. -/
def onStream (m : BinaryStream α) : ParserM α := fun s =>
  (some (m s.pos).1, { s with pos := (m s.pos).2 })

/-- Perform an action. -/
def perform (a : Action) : ParserM Unit := fun s =>
  (some (), { s with store := s.store.apply a, log := s.log ++ [a] })

/-- The current store. -/
def getStore : ParserM Store := fun s => (some s.store, s)

/-- A block that starts with `ScopedStream scoped(stream, offset)`. -/
def scopedStream (offset : UInt64) (m : ParserM α) : ParserM α := fun s =>
  ((m { s with pos := offset }).1, { (m { s with pos := offset }).2 with pos := s.pos })

end ParserM

open ParserM

/-! ### Protocols -/

/-- `Parser::get_or_create_protocol`. -/
def Parser.getOrCreateProtocol (bin : Binary) (offset : UInt64) : ParserM (Option Ptr) := do
  let store ← getStore
  match store.cache offset with
  | some proto => return some proto
  | none =>
    scopedStream offset do
      match ← onStream (Protocol.create bin) with
      | none => return none
      | some proto =>
        let store ← getStore
        -- the new protocol is not put into the cache
        perform (.createProtocol offset proto)
        return some store.next

/-- The body of the loop of `process_protocols`, once the entry is read. -/
def Parser.processProtocol (bin : Binary) (entry : UInt64) : ParserM Unit :=
  scopedStream (decodePtr bin entry) do
    -- nor is the cache looked at here: an address that is listed twice is registered twice
    match ← onStream (Protocol.create bin) with
    | none => return ()
    | some proto => perform (.listProtocol (decodePtr bin entry) proto)

/-! ### Classes -/

namespace Class

/-- The two attempts of `Class::create` to read the `class_ro_t` of a class. -/
def peekRo (bin : Binary) (clsObj : ObjcClassT) : BinaryStream (Option ClassRoT) := do
  match ← BinaryStream.peekAt ClassRoT bin (decodePtr bin clsObj.classRoPtr) with
  | some rawRo => return some rawRo
  | none =>
    if 0 < bin.memoryBaseAddress then BinaryStream.peekAt ClassRoT bin (clsObj.classRoPtr2 bin)
    else return none

/-- The structures of a class that `Class::create` starts from. -/
structure Header where
  clsObj : ObjcClassT
  rawRo : ClassRoT
  name : Str
deriving DecidableEq

/-- `is_meta()`, once the flags are copied. -/
def Header.isMeta (h : Header) : Bool := h.rawRo.flags &&& metaFlag != 0

/-- The first part of `Class::create`, which reads the structures or fails. -/
def readHeader (bin : Binary) : BinaryStream (Option Header) := do
  let some clsObj ← BinaryStream.peek ObjcClassT bin | return none
  let some rawRo ← peekRo bin clsObj | return none
  let some name ← BinaryStream.peekStringAt bin (decodePtr bin rawRo.name) | return none
  return some ⟨clsObj, rawRo, name⟩

/-- The block of `Class::create` on `base_method_list`.  The first method that cannot be read
ends it. -/
def readBaseMethods (bin : Binary) (ptr : UInt64) (isMeta : Bool) :
    BinaryStream (List Method) :=
  if ptr = 0 then return []
  else BinaryStream.scopedStream (decodePtr bin ptr) do
    let some methodList ← BinaryStream.read MethodListT bin | return []
    let methodsAddr ← BinaryStream.pos
    BinaryStream.createWhile (Method.createWith bin methodList.isSmall !isMeta) methodsAddr
      (sizeofMeth methodList.isSmall) 0 methodList.count.toNat

/-- The block of `Class::create` on `ivars`. -/
def readIvars (bin : Binary) (ptr : UInt64) : BinaryStream (List IVar) :=
  if ptr = 0 then return []
  else BinaryStream.scopedStream (decodePtr bin ptr) do
    let some list ← BinaryStream.read CountedListT bin | return []
    let addr ← BinaryStream.pos
    BinaryStream.createEach (IVar.create bin) addr (Layout.size IvarT) 0 list.count.toNat

/-- The loop of `Class::create` on the slots of `base_protocols`. -/
def adoptProtocols (bin : Binary) : ℕ → ParserM (List Ptr)
  | 0 => return []
  | n + 1 => do
    let some slot ← onStream (BinaryStream.read UInt64 bin) | return []
    -- a slot that leads to no protocol is passed over
    match ← Parser.getOrCreateProtocol bin (decodePtr bin slot) with
    | some proto =>
      perform (.holdProtocol proto)
      return proto :: (← adoptProtocols bin n)
    | none => adoptProtocols bin n

/-- The block of `Class::create` on `base_protocols`. -/
def readBaseProtocols (bin : Binary) (ptr : UInt64) : ParserM (List Ptr) :=
  if ptr = 0 then return []
  else scopedStream (decodePtr bin ptr) do
    let some list ← onStream (BinaryStream.read ProtocolListT bin) | return []
    adoptProtocols bin list.count.toNat

/-- The block of `Class::create` on `super_class`, for the class at `P`: unless the link is null
or leads back to `P`, the class that it leads to is made by `create`. -/
def readSuper (bin : Binary) (P superClass : UInt64) (create : ParserM (Option (Class Ptr))) :
    ParserM (Option (Class Ptr)) :=
  if superClass ≠ 0 ∧ decodePtr bin superClass ≠ P then
    scopedStream (decodePtr bin superClass) create
  else return none

/-- The methods taken over from the class that the link leads to. -/
def superMethods {P : Type} : Option (Class P) → List Method
  | some superCls => superCls.methods.map fun m => { m with isInstance := false }
  | none => []

/-- `Class::create`, with a bound on the depth of its recursion. -/
def create (bin : Binary) : ℕ → ParserM (Option (Class Ptr))
  | 0 => Attempt.giveUp
  | depth + 1 => do
    let P ← onStream BinaryStream.pos
    let some h ← onStream (readHeader bin) | return none
    let superCls ← readSuper bin P h.clsObj.superClass (create bin depth)
    let methods ← onStream (readBaseMethods bin h.rawRo.baseMethodList h.isMeta)
    let protocols ← readBaseProtocols bin h.rawRo.baseProtocols
    let ivars ← onStream (readIvars bin h.rawRo.ivars)
    let properties ← onStream (readProperties bin h.rawRo.baseProperties)
    return some
      { name := h.name
        flags := h.rawRo.flags
        instanceStart := h.rawRo.instanceStart
        instanceSize := h.rawRo.instanceSize
        reserved := h.rawRo.reserved
        protocols := protocols
        methods := superMethods superCls ++ methods
        ivars := ivars
        properties := properties }

end Class

/-- The body of the loop of `process_classes`, once the entry is read. -/
def Parser.processClass (bin : Binary) (depth : ℕ) (entry : UInt64) : ParserM Unit :=
  scopedStream (decodePtr bin entry) do
    match ← Class.create bin depth with
    | none => return ()
    | some cls => perform (.appendClass cls)

/-! ### The lists of the image -/

/-- `get_objc_section`. -/
def getObjcSection (bin : Binary) (name : String) : Option (List UInt8) :=
  (bin.getSection "__DATA" name).or
    ((bin.getSection "__DATA_CONST" name).or (bin.getSection "__DATA_DIRTY" name))

/-- The pointers in a section, as the loops of `process_protocols` and `process_classes` read
them one after the other: as many as the section has room for. -/
def entriesOf : List UInt8 → List UInt64
  | b₀ :: b₁ :: b₂ :: b₃ :: b₄ :: b₅ :: b₆ :: b₇ :: bytes =>
      word64 ([b₀, b₁, b₂, b₃, b₄, b₅, b₆, b₇].getD · 0) 0 :: entriesOf bytes
  | _ => []

/-- The entries of `__objc_protolist`. -/
def protolist (bin : Binary) : List UInt64 :=
  ((getObjcSection bin "__objc_protolist").map entriesOf).getD []

/-- The entries of `__objc_classlist`. -/
def classlist (bin : Binary) : List UInt64 :=
  ((getObjcSection bin "__objc_classlist").map entriesOf).getD []

/-- Do the same for every entry of a list. -/
def forEntries (f : UInt64 → ParserM Unit) : List UInt64 → ParserM Unit
  | [] => return ()
  | entry :: entries => do
    f entry
    forEntries f entries

/-- `Parser::process_protocols`. -/
def Parser.processProtocols (bin : Binary) : ParserM Unit :=
  forEntries (Parser.processProtocol bin) (protolist bin)

/-- `Parser::process_classes`. -/
def Parser.processClasses (bin : Binary) (depth : ℕ) : ParserM Unit :=
  forEntries (Parser.processClass bin depth) (classlist bin)

/-- `Parser::parse`, with a bound on the depth of the classes. -/
def Parser.parse (bin : Binary) (depth : ℕ) : Option Unit × Parser :=
  (do Parser.processProtocols bin; Parser.processClasses bin depth : ParserM Unit) .initial

end ICDump
