/-
The two layouts of methods.

A `big_method_t` holds three pointers, and a `small_method_t` three offsets, each relative to its
own field, the one of the name to a slot with a pointer in it.  `BigEntry` and `SmallEntry` say
that an entry describes a method with a given name, type and implementation.

`Method::create` finds the name and the type of both.  The implementation of a big method is
stored as it is written, without `decode_ptr`, and that of a small method is the offset, without
the address that it is relative to.
-/
import ICDump.ObjC.Records

namespace ICDump

/-- The address that a signed offset leads to from an address. -/
def relative (base : UInt64) (offset : Int32) : UInt64 := base + offset.toInt64.toUInt64

/-- The entry at an address is the `big_method_t` `raw`, and describes the method with the given
name, type and implementation. -/
structure BigEntry (bin : Binary) (name type : Str) (imp pos : UInt64) (raw : BigMethodT) :
    Prop where
  load : bin.load BigMethodT pos = some raw
  name : bin.peekStringAt (decodePtr bin raw.name) = some name
  types : bin.peekStringAt (decodePtr bin raw.types) = some type
  imp : decodePtr bin raw.imp = imp

/-- The entry at an address is the `small_method_t` `raw`, the pointer in the slot of its name is
`slot`, and it describes the method with the given name, type and implementation. -/
structure SmallEntry (bin : Binary) (name type : Str) (imp pos : UInt64) (raw : SmallMethodT)
    (slot : UInt64) : Prop where
  load : bin.load SmallMethodT pos = some raw
  load_slot : bin.load UInt64 (relative pos raw.name) = some slot
  name : bin.peekStringAt (decodePtr bin slot) = some name
  types : bin.peekStringAt (relative (pos + 4) raw.types) = some type
  imp : relative (pos + 8) raw.imp = imp

namespace Method

variable {bin : Binary} {name type : Str} {imp pos pos' : UInt64} {big : BigMethodT}
  {small : SmallMethodT} {slot : UInt64}

/-- What is made of a big entry. -/
lemma value_createBig (h : bin.load BigMethodT pos = some big) :
    (create bin false).value pos = some
      { name := (bin.peekStringAt (decodePtr bin big.name)).getD []
        mangledType := (bin.peekStringAt (decodePtr bin big.types)).getD []
        addr := big.imp, isInstance := true } := by
  rw [create, if_neg (by simp), createBig, BinaryStream.value, BinaryStream.bind_apply,
    BinaryStream.peek_eq h]
  rfl

/-- What is made of a small entry. -/
lemma value_createSmall (h : bin.load SmallMethodT pos = some small) :
    (create bin true).value pos = some
      { name := ((bin.load UInt64 (relative pos small.name)).bind fun slot =>
          bin.peekStringAt (decodePtr bin slot)).getD []
        mangledType := (bin.peekStringAt (relative (pos + 4) small.types)).getD []
        addr := small.imp.toInt64.toUInt64, isInstance := true } := by
  have hpos : BinaryStream.pos pos = (pos, pos) := rfl
  have hname : (peekName bin (bin.load UInt64 (relative pos small.name)) pos) =
      ((bin.load UInt64 (relative pos small.name)).bind fun slot =>
        bin.peekStringAt (decodePtr bin slot), pos) := by
    cases bin.load UInt64 (relative pos small.name) <;> rfl
  rw [create, if_pos rfl, createSmall, BinaryStream.value, BinaryStream.bind_apply, hpos,
    BinaryStream.bind_apply, BinaryStream.peek_eq h]
  show some (Method.mk ((peekName bin (bin.load UInt64 (relative pos small.name)) pos).1.getD [])
    _ _ _) = _
  rw [hname]
  rfl

/-- **Two entries that describe the same method** give the same name and the same type.  They give
its implementation for an address when the pointer to it is stored decoded, and the offset of the
small entry is relative to zero. -/
theorem create_entries (hbig : BigEntry bin name type imp pos big)
    (hsmall : SmallEntry bin name type imp pos' small slot) :
    ∃ m m', (create bin false).value pos = some m ∧ (create bin true).value pos' = some m' ∧
      m.name = name ∧ m'.name = name ∧ m.mangledType = type ∧ m'.mangledType = type ∧
        (m.addr = imp ∧ m'.addr = imp ↔ big.imp = imp ∧ pos' + 8 = 0) := by
  refine ⟨_, _, value_createBig hbig.load, value_createSmall hsmall.load, ?_, ?_, ?_, ?_, ?_⟩
  · simp [hbig.name]
  · simp [hsmall.load_slot, hsmall.name]
  · simp [hbig.types]
  · simp [hsmall.types]
  · refine and_congr_right fun _ => ?_
    rw [← hsmall.imp, relative]
    exact right_eq_add

/-- An image with a big entry at `0x0` and a small one at `0x20`, for the method `f` of type `v`
that is implemented at `0x60`.  The slot of the name is at `0x30`. -/
def entriesBinary : Binary where
  imagebase := 0
  memoryBaseAddress := 0
  getSection _ _ := none
  segmentFromVirtualAddress v :=
    if v < 0x1000 then
      some
        { virtualAddress := 0, virtualSize := 0x1000, fileSize := 0x1000
          content := ⟨fun i =>
            if i = 0x0 ∨ i = 0x30 then 0x40 else if i = 0x8 then 0x50 else if i = 0x10 then 0x60
            else if i = 0x20 then 0x10 else if i = 0x24 then 0x2c else if i = 0x28 then 0x38
            else 0, 0x1000⟩ }
    else none
  peekStringAt v := if v = 0x40 then some ['f'] else if v = 0x50 then some ['v'] else none
  hostWord _ := 0

lemma bigEntry_entriesBinary :
    BigEntry entriesBinary ['f'] ['v'] 0x60 0x0 ⟨0x40, 0x50, 0x60⟩ :=
  ⟨rfl, rfl, rfl, rfl⟩

lemma smallEntry_entriesBinary :
    SmallEntry entriesBinary ['f'] ['v'] 0x60 0x20 ⟨0x10, 0x2c, 0x38⟩ 0x40 :=
  ⟨rfl, rfl, rfl, rfl, rfl⟩

theorem create_entries_differ :
    ∃ m m', (create entriesBinary false).value 0x0 = some m ∧
      (create entriesBinary true).value 0x20 = some m' ∧ m.name = m'.name ∧
        m.mangledType = m'.mangledType ∧ ¬ (m.addr = 0x60 ∧ m'.addr = 0x60) := by
  obtain ⟨m, m', hm, hm', hn, hn', ht, ht', haddr⟩ :=
    create_entries bigEntry_entriesBinary smallEntry_entriesBinary
  exact ⟨m, m', hm, hm', hn.trans hn'.symm, ht.trans ht'.symm, haddr.not.2 (by decide)⟩

/-- The address of the small entry at `0x20` is `0x38`, its offset. -/
theorem create_small_offset :
    ¬ ∀ (bin : Binary) (name type : Str) (imp pos pos' slot : UInt64) (big : BigMethodT)
      (small : SmallMethodT), BigEntry bin name type imp pos big →
        SmallEntry bin name type imp pos' small slot →
          ∃ m m', (create bin false).value pos = some m ∧ (create bin true).value pos' = some m' ∧
            m.name = m'.name ∧ m.mangledType = m'.mangledType ∧ m.addr = imp ∧ m'.addr = imp := by
  intro h
  obtain ⟨m, m', -, hm', -, -, -, haddr⟩ := h _ _ _ _ _ _ _ _ _ bigEntry_entriesBinary
    smallEntry_entriesBinary
  have hcreate : (create entriesBinary true).value 0x20 = some ⟨['f'], ['v'], 0x38, true⟩ := rfl
  obtain rfl := Option.some.inj (hm'.symm.trans hcreate)
  exact absurd haddr (by decide)

end Method

end ICDump
