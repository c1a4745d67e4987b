/-
Null pointers.

A pointer that is null is decoded to the image base, where the header of the image is.  The
pointers to lists are tested before they are decoded.  The pointers to strings are not, nor are the
entries of lists of pointers: a null among them is followed to the header, and is read as absent
only if nothing can be read there (`null_absent_iff`).
-/
import ICDump.ObjC.MethodEntries
import ICDump.ObjC.Parse

namespace ICDump

lemma decodePtr_zero (bin : Binary) : decodePtr bin 0 = bin.imagebase := by
  have hzero : (0 : UInt64) &&& ((1 : UInt64) <<< 51 - 1) = 0 := by decide
  rw [decodePtr, hzero]
  by_cases h : 0 < bin.imagebase
  · simp [h]
  · have hbase : bin.imagebase = 0 := by simpa using h
    simp [hbase]

/-! ### Pointers to strings -/

/-- The pointers to strings in the records. -/
inductive StringField
  | protocolMangledName | ivarName | ivarType | propertyName | propertyAttributes
  | bigMethodName | bigMethodTypes | smallMethodName
deriving DecidableEq, Repr

namespace StringField

/-- The pointer that is stored for the record at a position.  For the name of a small method it
is in a slot. -/
def raw (bin : Binary) (pos : UInt64) : StringField → Option UInt64
  | protocolMangledName => (bin.load ProtocolT pos).map ProtocolT.mangledName
  | ivarName => (bin.load IvarT pos).map IvarT.name
  | ivarType => (bin.load IvarT pos).map IvarT.type
  | propertyName => (bin.load PropertyT pos).map PropertyT.name
  | propertyAttributes => (bin.load PropertyT pos).map PropertyT.attributes
  | bigMethodName => (bin.load BigMethodT pos).map BigMethodT.name
  | bigMethodTypes => (bin.load BigMethodT pos).map BigMethodT.types
  | smallMethodName =>
      (bin.load SmallMethodT pos).bind fun m => bin.load UInt64 (relative pos m.name)

/-- The string in the object that is made of the record at a position. -/
def string (bin : Binary) (pos : UInt64) : StringField → Option Str
  | protocolMangledName => ((Protocol.create bin).value pos).map Protocol.mangledName
  | ivarName => ((IVar.create bin).value pos).map IVar.name
  | ivarType => ((IVar.create bin).value pos).map IVar.mangledType
  | propertyName => ((Property.create bin).value pos).map Property.name
  | propertyAttributes => ((Property.create bin).value pos).map Property.attributes
  | bigMethodName => ((Method.create bin false).value pos).map Method.name
  | bigMethodTypes => ((Method.create bin false).value pos).map Method.mangledType
  | smallMethodName => ((Method.create bin true).value pos).map Method.name

end StringField

variable {bin : Binary} {pos ptr : UInt64}

lemma value_createIVar {raw : IvarT} (h : bin.load IvarT pos = some raw) :
    (IVar.create bin).value pos = some
      { name := (bin.peekStringAt (decodePtr bin raw.name)).getD []
        mangledType := (bin.peekStringAt (decodePtr bin raw.type)).getD [] } := by
  rw [IVar.create, BinaryStream.value, BinaryStream.bind_apply, BinaryStream.peek_eq h]
  rfl

lemma value_createProperty {raw : PropertyT} (h : bin.load PropertyT pos = some raw) :
    (Property.create bin).value pos = some
      { name := (bin.peekStringAt (decodePtr bin raw.name)).getD []
        attributes := (bin.peekStringAt (decodePtr bin raw.attributes)).getD [] } := by
  rw [Property.create, BinaryStream.value, BinaryStream.bind_apply, BinaryStream.peek_eq h]
  rfl

lemma mangledName_createProtocol {raw : ProtocolT} (h : bin.load ProtocolT pos = some raw) :
    ((Protocol.create bin).value pos).map Protocol.mangledName =
      some ((bin.peekStringAt (decodePtr bin raw.mangledName)).getD []) := by
  rw [Protocol.create, BinaryStream.value, BinaryStream.bind_apply, BinaryStream.peek_eq h]
  rfl

/-- **Every string is read through its decoded pointer**, whether that is null or not. -/
lemma StringField.string_eq {f : StringField} (h : f.raw bin pos = some ptr) :
    f.string bin pos = some ((bin.peekStringAt (decodePtr bin ptr)).getD []) := by
  cases f with
  | smallMethodName =>
      obtain ⟨m, hm, hslot⟩ := Option.bind_eq_some_iff.1 h
      rw [string, Method.value_createSmall hm, hslot]
      rfl
  | _ =>
      obtain ⟨raw, hraw, rfl⟩ := Option.map_eq_some_iff.1 h
      first
        | exact mangledName_createProtocol hraw
        | rw [string, value_createIVar hraw]; rfl
        | rw [string, value_createProperty hraw]; rfl
        | rw [string, Method.value_createBig hraw]; rfl

/-! ### Entries of lists -/

lemma protocolAt_eq_none_iff {a : UInt64} :
    protocolAt bin a = none ↔ bin.load ProtocolT a = none := by
  cases h : bin.load ProtocolT a with
  | none =>
      rw [protocolAt, Protocol.create, BinaryStream.value, BinaryStream.bind_apply,
        BinaryStream.peek_eq h]
      exact iff_of_true rfl rfl
  | some raw =>
      have hname := mangledName_createProtocol h
      refine iff_of_false (fun hnone => ?_) (by simp)
      rw [protocolAt] at hnone
      simp [hnone] at hname

namespace Parser

variable {s : Parser}

/-- A slot of `base_protocols` is passed over exactly when there is no protocol at its address. -/
lemma adoptProtocols_skips_iff (hs : s.store.WellFormed bin) {slot : UInt64}
    (hslot : bin.load UInt64 s.pos = some slot) (n : ℕ) :
    Class.adoptProtocols bin (n + 1) s = Class.adoptProtocols bin n { s with pos := s.pos + 8 } ↔
      protocolAt bin (decodePtr bin slot) = none := by
  have hread : ParserM.onStream (BinaryStream.read UInt64 bin) s =
      (some (some slot), { s with pos := s.pos + 8 }) := by
    rw [ParserM.onStream, BinaryStream.read_of_some hslot]
    rfl
  constructor
  · intro h
    obtain ⟨ps, s₁, hloop, hadopt⟩ := adoptProtocols_spec (n + 1) hs
    obtain ⟨ps', s₁', hloop', hadopt'⟩ :=
      adoptProtocols_spec n (s := { s with pos := s.pos + 8 }) hs
    rw [hloop, hloop', Prod.mk.injEq, Option.some.injEq] at h
    -- as many protocols are adopted as can be read
    have hlen := congrArg List.length hadopt.values
    have hlen' := congrArg List.length hadopt'.values
    simp only [List.length_map] at hlen hlen'
    rw [h.1, hlen', Class.slotsFrom, hslot] at hlen
    by_contra hne
    obtain ⟨proto, hproto⟩ := Option.ne_none_iff_exists'.1 hne
    simp [hproto] at hlen
  · intro hnone
    have huncached : s.store.cache (decodePtr bin slot) = none := by
      cases hc : s.store.cache (decodePtr bin slot) with
      | none => rfl
      | some p =>
          obtain ⟨proto, hmem⟩ := hs.cached hc
          exact absurd (hs.decoded _ hmem) (by simp [hnone])
    have hget := getOrCreateProtocol_of_unreadable (s := { s with pos := s.pos + 8 }) huncached
      hnone
    rw [Class.adoptProtocols]
    exact (Attempt.bind_of_some hread).trans (Attempt.bind_of_some hget)

/-- An entry of `__objc_protolist` changes nothing exactly when there is no protocol at its
address. -/
lemma processProtocol_skips_iff (entry : UInt64) :
    processProtocol bin entry s = (some (), s) ↔ protocolAt bin (decodePtr bin entry) = none := by
  have hread := onStream_protocol bin { s with pos := decodePtr bin entry }
  constructor
  · intro h
    obtain ⟨s', hprocess, hlist⟩ := processProtocol_spec bin s entry
    obtain rfl := (Prod.mk.inj (h.symm.trans hprocess)).2
    have haddresses := congrArg List.length hlist.addresses
    by_contra hne
    obtain ⟨proto, hproto⟩ := Option.ne_none_iff_exists'.1 hne
    simp [hproto] at haddresses
  · intro hnone
    rw [hnone] at hread
    show ParserM.scopedStream (decodePtr bin entry) _ s =
      (some (), { ({ s with pos := decodePtr bin entry } : Parser) with pos := s.pos })
    exact scopedStream_eq (Attempt.bind_of_some hread)

/-- An entry of `__objc_classlist` changes nothing exactly when the structures of a class cannot be
read at its address. -/
lemma processClass_skips_iff (hs : s.store.WellFormed bin) (depth : ℕ) (entry : UInt64) :
    processClass bin (depth + 1) entry s = (some (), s) ↔
      Class.header bin (decodePtr bin entry) = none := by
  constructor
  · intro h
    cases hchain : Link.chain (Class.superLink bin) (depth + 1) (decodePtr bin entry) with
    | none =>
        rw [processClass_giveUp hchain, Prod.mk.injEq] at h
        exact absurd h.1 (by simp)
    | some l =>
        obtain ⟨s', hprocess, hload⟩ := processClass_spec hs hchain
        obtain rfl := (Prod.mk.inj (h.symm.trans hprocess)).2
        obtain ⟨l', rfl⟩ := Link.exists_eq_cons_of_chain hchain
        have hvalues := congrArg List.length hload.values
        by_contra hne
        obtain ⟨hd, hhd⟩ := Option.ne_none_iff_exists'.1 hne
        simp [Class.valueAlong, hhd] at hvalues
  · intro hnone
    have hcreate : Class.create bin (depth + 1) { s with pos := decodePtr bin entry } =
        (some none, { s with pos := decodePtr bin entry }) := Class.create_of_header_none hnone
    show ParserM.scopedStream (decodePtr bin entry) _ s =
      (some (), { ({ s with pos := decodePtr bin entry } : Parser) with pos := s.pos })
    exact scopedStream_eq (Attempt.bind_of_some hcreate)

/-- **Null pointers are read as absent** when there is nothing to be read at the image base: no
string but the empty one, no protocol, and no structures of a class. -/
theorem null_absent_iff (hs : Leads bin initial s) (n depth : ℕ) :
    (∀ (f : StringField) (pos : UInt64), f.raw bin pos = some 0 →
      (f.string bin pos = some [] ↔ ∀ w, bin.peekStringAt bin.imagebase = some w → w = [])) ∧
    (bin.load UInt64 s.pos = some 0 →
      (Class.adoptProtocols bin (n + 1) s = Class.adoptProtocols bin n { s with pos := s.pos + 8 } ↔
        bin.load ProtocolT bin.imagebase = none)) ∧
    (processProtocol bin 0 s = (some (), s) ↔ bin.load ProtocolT bin.imagebase = none) ∧
    (processClass bin (depth + 1) 0 s = (some (), s) ↔ Class.header bin bin.imagebase = none) := by
  have hwf := hs.wellFormed Store.wellFormed_initial
  rw [← protocolAt_eq_none_iff, ← decodePtr_zero]
  refine ⟨fun f pos hf => ?_, fun hslot => adoptProtocols_skips_iff hwf hslot n,
    processProtocol_skips_iff 0, processClass_skips_iff hwf depth 0⟩
  rw [StringField.string_eq hf]
  cases bin.peekStringAt (decodePtr bin 0) <;> simp

/-- An image with the image base `0x1000`, where its magic number is.  All other bytes are zero. -/
def headerBinary : Binary where
  imagebase := 0x1000
  memoryBaseAddress := 0
  getSection _ _ := none
  segmentFromVirtualAddress v :=
    if 0x1000 ≤ v ∧ v < 0x2000 then
      some
        { virtualAddress := 0x1000, virtualSize := 0x1000, fileSize := 0x1000
          content := ⟨fun i =>
            if i = 0 then 0xcf else if i = 1 then 0xfa else if i = 2 then 0xed
            else if i = 3 then 0xfe else 0, 0x1000⟩ }
    else none
  peekStringAt v := if v = 0x1000 then some ['Ï', 'ú', 'í', 'þ'] else none
  hostWord _ := 0

theorem null_absent_iff_header : processProtocol headerBinary 0 initial ≠ (some (), initial) := by
  have h := (@null_absent_iff headerBinary initial (.of_eq rfl rfl) 0 0).2.2.1
  exact h.not.2 (Option.some_ne_none _)

/-- The magic number is taken for the name of an instance variable, and for a protocol. -/
theorem null_read_as_header :
    (¬ ∀ (bin : Binary) (f : StringField) (pos : UInt64), f.raw bin pos = some 0 →
      f.string bin pos = some []) ∧
    ¬ ∀ (bin : Binary) (s : Parser), Leads bin initial s →
      processProtocol bin 0 s = (some (), s) := by
  refine ⟨fun h => ?_, fun h => ?_⟩
  · have hstring : StringField.ivarName.string headerBinary 0x1100 = some ['Ï', 'ú', 'í', 'þ'] :=
      rfl
    have hempty := h headerBinary .ivarName 0x1100 rfl
    exact absurd (hstring.symm.trans hempty) (by decide)
  · have hlog : (processProtocol headerBinary 0 initial).2.log.length = 1 := rfl
    rw [h headerBinary initial (.of_eq rfl rfl)] at hlog
    exact absurd hlog (by decide)

end Parser

end ICDump
