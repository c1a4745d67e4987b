/-
The lists of methods, as classes and protocols read them (`Class.cpp`, `Protocol.cpp`).

A list of methods has a header and entries at a fixed stride.  Five loops of the source read
such lists: the one of `Class::create` ends at the first entry that cannot be read, the four of
`Protocol::create` pass such an entry over.  `methodListAt` and `entryAddr` say where the list of
a pointer and its entries are, so that each loop is a function of the image.
-/
import ICDump.ObjC.MethodChain
import ICDump.ObjC.MethodEntries

namespace ICDump

/-! ### Entries -/

namespace Method

/-- The method that a `big_method_t` describes. -/
def ofBig (bin : Binary) (raw : BigMethodT) : Method where
  name := (bin.peekStringAt (decodePtr bin raw.name)).getD []
  mangledType := (bin.peekStringAt (decodePtr bin raw.types)).getD []
  addr := raw.imp
  isInstance := true

/-- The method that the `small_method_t` at an address describes. -/
def ofSmall (bin : Binary) (pos : UInt64) (raw : SmallMethodT) : Method where
  name := ((bin.load UInt64 (relative pos raw.name)).bind fun slot =>
    bin.peekStringAt (decodePtr bin slot)).getD []
  mangledType := (bin.peekStringAt (relative (pos + 4) raw.types)).getD []
  addr := raw.imp.toInt64.toUInt64
  isInstance := true

/-- The method in the entry at an address, if the entry can be read. -/
def entryAt (bin : Binary) (isSmall : Bool) (pos : UInt64) : Option Method :=
  if isSmall then (bin.load SmallMethodT pos).map (ofSmall bin pos)
  else (bin.load BigMethodT pos).map (ofBig bin)

/-- The entry at an address can be read. -/
def Readable (bin : Binary) (isSmall : Bool) (pos : UInt64) : Bool :=
  if isSmall then (bin.load SmallMethodT pos).isSome else (bin.load BigMethodT pos).isSome

/-- What a method has from its entry. -/
def record (m : Method) : Str × Str × UInt64 := (m.name, m.mangledType, m.addr)

variable {bin : Binary} {isSmall : Bool} {pos : UInt64}

lemma isSome_entryAt : (entryAt bin isSmall pos).isSome = Readable bin isSmall pos := by
  rw [entryAt, Readable]
  split <;> exact Option.isSome_map

/-- `Method::create` makes what is in the entry. -/
lemma value_create (bin : Binary) (isSmall : Bool) (pos : UInt64) :
    (create bin isSmall).value pos = entryAt bin isSmall pos := by
  cases isSmall with
  | true =>
      rw [entryAt, if_pos rfl]
      cases hload : bin.load SmallMethodT pos with
      | none =>
          rw [create, if_pos rfl, createSmall, BinaryStream.value, BinaryStream.bind_apply,
            BinaryStream.bind_apply]
          rw [show BinaryStream.pos pos = (pos, pos) from rfl, BinaryStream.peek_eq hload]
          rfl
      | some raw => exact value_createSmall hload
  | false =>
      rw [entryAt, if_neg (by simp)]
      cases hload : bin.load BigMethodT pos with
      | none =>
          rw [create, if_neg (by simp), createBig, BinaryStream.value, BinaryStream.bind_apply,
            BinaryStream.peek_eq hload]
          rfl
      | some raw => exact value_createBig hload

end Method

/-! ### Lists -/

/-- The header of the list that a pointer leads to, if there is a list. -/
def methodListAt (bin : Binary) (ptr : UInt64) : Option MethodListT :=
  if ptr = 0 then none else bin.load MethodListT (decodePtr bin ptr)

/-- The address of an entry of the list that a pointer leads to. -/
def entryAddr (bin : Binary) (ptr : UInt64) (list : MethodListT) (i : ℕ) : UInt64 :=
  decodePtr bin ptr + 8 + .ofNat i * sizeofMeth list.isSmall

/-- The entries of a list, one for each place. -/
def entries (bin : Binary) (ptr : UInt64) (list : MethodListT) : List (Option Method) :=
  (List.range list.count.toNat).map fun i =>
    Method.entryAt bin list.isSmall (entryAddr bin ptr list i)

/-- The methods in the readable entries of the list that a pointer leads to. -/
def methodsIn (bin : Binary) (ptr : UInt64) (isInstance : Bool) : List Method :=
  match methodListAt bin ptr with
  | none => []
  | some list => (List.range list.count.toNat).filterMap fun i =>
      (Method.entryAt bin list.isSmall (entryAddr bin ptr list i)).map
        (Method.withInstance isInstance)

variable {bin : Binary} {ptr : UInt64} {list : MethodListT}

/-- A list with holes up to the first hole has as many elements as without the holes, exactly when
nothing comes after a hole. -/
lemma map_reduceOption_takeWhile_eq_iff {α β : Type} (f : α → β) (l : List (Option α)) :
    (l.takeWhile Option.isSome).reduceOption.map f = l.reduceOption.map f ↔
      l.Pairwise fun a b => b.isSome → a.isSome := by
  induction l with
  | nil => simp
  | cons o l ih =>
      cases o with
      | none =>
          have hnil : l.reduceOption = [] ↔ ∀ b ∈ l, ¬ b.isSome := by
            rw [List.eq_nil_iff_forall_not_mem]
            simp only [List.reduceOption_mem_iff]
            constructor
            · rintro h b hb hsome
              obtain ⟨a, rfl⟩ := Option.isSome_iff_exists.1 hsome
              exact h a hb
            · exact fun h a ha => h _ ha rfl
          rw [List.takeWhile_cons_of_neg (by simp), List.reduceOption_cons_of_none,
            List.reduceOption_nil, List.map_nil, eq_comm, List.map_eq_nil_iff, hnil,
            List.pairwise_cons]
          constructor
          · intro h
            exact ⟨fun b hb hsome => absurd hsome (h b hb),
              List.pairwise_of_forall_mem_list fun a _ b hb hsome => absurd hsome (h b hb)⟩
          · exact fun h b hb hsome => absurd (h.1 b hb hsome) (by simp)
      | some a =>
          rw [List.takeWhile_cons_of_pos rfl, List.reduceOption_cons_of_some,
            List.reduceOption_cons_of_some, List.map_cons, List.map_cons, List.pairwise_cons]
          simp [ih]

/-! ### Classes and protocols -/

lemma entries_eq (list : MethodListT) : entries bin ptr list = (List.range list.count.toNat).map
    fun i => (Method.create bin list.isSmall).value (entryAddr bin ptr list i) := by
  simp only [entries, Method.value_create]

/-- The loop of `Class::create` on a list. -/
lemma Class.record_readBaseMethods (h : methodListAt bin ptr = some list) (isMeta : Bool)
    (p : UInt64) : ((Class.readBaseMethods bin ptr isMeta).value p).map Method.record =
      ((entries bin ptr list).takeWhile Option.isSome).reduceOption.map Method.record := by
  obtain ⟨hptr, hload⟩ := Option.ite_none_left_eq_some.1 h
  have hrecord : Method.record ∘ Method.withInstance (!isMeta) = Method.record := rfl
  rw [Class.value_readBaseMethods, Class.methodsAt, if_neg hptr, hload, List.map_map, hrecord,
    entries_eq]
  rfl

/-- The loops of `Protocol::create` on a list. -/
lemma Protocol.value_readMethods (h : methodListAt bin ptr = some list) (isInstance : Bool)
    (p : UInt64) : (Protocol.readMethods bin ptr isInstance).value p =
      (entries bin ptr list).reduceOption.map (Method.withInstance isInstance) := by
  obtain ⟨hptr, hload⟩ := Option.ite_none_left_eq_some.1 h
  rw [Protocol.readMethods, if_neg hptr, BinaryStream.value, BinaryStream.scopedStream,
    BinaryStream.bind_apply, BinaryStream.read_of_some hload]
  refine (BinaryStream.value_createEach _ _ _ _ _ _).trans ?_
  rw [← List.range_eq_range', entries_eq, ← List.reduceOption_map, List.map_map]
  rfl

lemma methodListAt_eq_none (h : methodListAt bin ptr = none) :
    ptr = 0 ∨ bin.load MethodListT (decodePtr bin ptr) = none := by
  by_cases hptr : ptr = 0
  · exact Or.inl hptr
  · rw [methodListAt, if_neg hptr] at h
    exact Or.inr h

/-- Without a list nothing is read. -/
lemma Class.value_readBaseMethods_of_none (h : methodListAt bin ptr = none) (isMeta : Bool)
    (p : UInt64) : (Class.readBaseMethods bin ptr isMeta).value p = [] := by
  rw [Class.value_readBaseMethods, Class.methodsAt]
  rcases methodListAt_eq_none h with hptr | hload
  · rw [if_pos hptr]
    rfl
  · rw [hload]
    split <;> rfl

lemma Protocol.value_readMethods_of_none (h : methodListAt bin ptr = none) (isInstance : Bool)
    (p : UInt64) : (Protocol.readMethods bin ptr isInstance).value p = [] := by
  rw [Protocol.readMethods]
  rcases methodListAt_eq_none h with hptr | hload
  · rw [if_pos hptr]
    rfl
  · split
    · rfl
    · rw [BinaryStream.value, BinaryStream.scopedStream, BinaryStream.bind_apply,
        BinaryStream.read_of_none hload]
      rfl

/-- The readable entries of the list that a pointer leads to come before the others. -/
def ReadableFirst (bin : Binary) (ptr : UInt64) : Prop :=
  ∀ list, methodListAt bin ptr = some list → ∀ i j, i < j → j < list.count.toNat →
    Method.Readable bin list.isSmall (entryAddr bin ptr list j) →
      Method.Readable bin list.isSmall (entryAddr bin ptr list i)

lemma pairwise_entries_iff (list : MethodListT) :
    ((entries bin ptr list).Pairwise fun a b => b.isSome → a.isSome) ↔
      ∀ i j, i < j → j < list.count.toNat →
        Method.Readable bin list.isSmall (entryAddr bin ptr list j) →
          Method.Readable bin list.isSmall (entryAddr bin ptr list i) := by
  rw [entries, List.pairwise_map, List.pairwise_iff_getElem]
  simp only [Method.isSome_entryAt, List.length_range, List.getElem_range]
  exact ⟨fun h i j hij hj => h i j (hij.trans hj) hj hij, fun h i j _ hj hij => h i j hij hj⟩

lemma record_readers_eq_iff (h : methodListAt bin ptr = some list) (isMeta isInstance : Bool)
    (p q : UInt64) :
    ((Class.readBaseMethods bin ptr isMeta).value p).map Method.record =
        ((Protocol.readMethods bin ptr isInstance).value q).map Method.record ↔
      (entries bin ptr list).Pairwise fun a b => b.isSome → a.isSome := by
  have hrecord : Method.record ∘ Method.withInstance isInstance = Method.record := rfl
  rw [Class.record_readBaseMethods h, Protocol.value_readMethods h, List.map_map, hrecord,
    map_reduceOption_takeWhile_eq_iff]

/-- **Classes and protocols read the same methods** from a list exactly when no readable entry of
it comes after one that is not. -/
theorem readers_agree_iff (bin : Binary) (ptr : UInt64) (isMeta isInstance : Bool)
    (p q : UInt64) :
    ((Class.readBaseMethods bin ptr isMeta).value p).map Method.record =
        ((Protocol.readMethods bin ptr isInstance).value q).map Method.record ↔
      ReadableFirst bin ptr := by
  cases h : methodListAt bin ptr with
  | none =>
      have hfirst : ReadableFirst bin ptr := fun list hlist =>
        absurd (h.symm.trans hlist) (by simp)
      refine iff_of_true ?_ hfirst
      rw [Class.value_readBaseMethods_of_none h, Protocol.value_readMethods_of_none h]
  | some list =>
      rw [record_readers_eq_iff h, pairwise_entries_iff]
      constructor
      · rintro hfirst list' hlist'
        obtain rfl := Option.some.inj (h.symm.trans hlist')
        exact hfirst
      · exact fun hfirst => hfirst list h

/-- An image with pages at `0` and `0x2000` and none between them.  The list at `0xfe0` has 173 big
entries, of which the first and the last are in these pages.  All bytes but those of the header
are zero. -/
def gapBinary : Binary where
  imagebase := 0
  memoryBaseAddress := 0
  getSection _ _ := none
  segmentFromVirtualAddress v :=
    if v < 0x1000 then
      some
        { virtualAddress := 0, virtualSize := 0x1000, fileSize := 0x1000
          content := ⟨fun i => if i = 0xfe0 then 24 else if i = 0xfe4 then 173 else 0, 0x1000⟩ }
    else if 0x2000 ≤ v ∧ v < 0x3000 then
      some
        { virtualAddress := 0x2000, virtualSize := 0x1000, fileSize := 0x1000
          content := ⟨fun _ => 0, 0x1000⟩ }
    else none
  peekStringAt _ := some []
  hostWord _ := 0

/-- The last entry is read for a protocol only. -/
theorem readers_gap :
    ¬ ∀ (bin : Binary) (ptr : UInt64) (isMeta isInstance : Bool) (p q : UInt64),
      ((Class.readBaseMethods bin ptr isMeta).value p).map Method.record =
        ((Protocol.readMethods bin ptr isInstance).value q).map Method.record := by
  intro h
  have hlist : methodListAt gapBinary 0xfe0 = some ⟨24, 173⟩ := rfl
  have hfirst := (pairwise_entries_iff _).1 <|
    (record_readers_eq_iff hlist false true 0 0).1 (h gapBinary 0xfe0 false true 0 0)
  have hlast : Method.Readable gapBinary false (entryAddr gapBinary 0xfe0 ⟨24, 173⟩ 172) := rfl
  have hgap : Method.Readable gapBinary false (entryAddr gapBinary 0xfe0 ⟨24, 173⟩ 1) = false := rfl
  exact Bool.false_ne_true (hgap.symm.trans (hfirst 1 172 (by omega) (by decide) hlast))

/-! ### The parts of a protocol -/

/-- The property in the entry at an address, if the entry can be read. -/
def Property.entryAt (bin : Binary) (pos : UInt64) : Option Property :=
  (bin.load PropertyT pos).map fun raw =>
    { name := (bin.peekStringAt (decodePtr bin raw.name)).getD []
      attributes := (bin.peekStringAt (decodePtr bin raw.attributes)).getD [] }

/-- The properties in the readable entries of the list that a pointer leads to. -/
def propertiesIn (bin : Binary) (ptr : UInt64) : List Property :=
  if ptr = 0 then []
  else
    match bin.load CountedListT (decodePtr bin ptr) with
    | none => []
    | some list => (List.range list.count.toNat).filterMap fun i =>
        Property.entryAt bin (decodePtr bin ptr + 8 + .ofNat i * 16)

lemma Property.value_create (bin : Binary) (pos : UInt64) :
    (Property.create bin).value pos = Property.entryAt bin pos := by
  rw [Property.create, Property.entryAt, BinaryStream.value, BinaryStream.bind_apply]
  cases hload : bin.load PropertyT pos with
  | none =>
      rw [BinaryStream.peek_eq hload]
      rfl
  | some raw =>
      rw [BinaryStream.peek_eq hload]
      rfl

/-- To leave out what fails is to filter. -/
lemma reduceOption_map_range {α : Type} (f : ℕ → Option α) (n : ℕ) :
    ((List.range n).map f).reduceOption = (List.range n).filterMap f := by
  rw [List.reduceOption, List.filterMap_map]
  rfl

lemma value_readProperties (bin : Binary) (ptr p : UInt64) :
    (readProperties bin ptr).value p = propertiesIn bin ptr := by
  rw [readProperties, propertiesIn]
  split
  · rfl
  · rw [BinaryStream.value, BinaryStream.scopedStream, BinaryStream.bind_apply]
    cases hlist : bin.load CountedListT (decodePtr bin ptr) with
    | none =>
        rw [BinaryStream.read_of_none hlist]
        rfl
    | some list =>
        rw [BinaryStream.read_of_some hlist]
        refine (BinaryStream.value_createEach _ _ _ _ _ _).trans ?_
        rw [← List.range_eq_range', reduceOption_map_range]
        simp only [Property.value_create]
        rfl

/-- The four blocks on the lists of methods read what is in these lists. -/
lemma Protocol.readMethods_eq (bin : Binary) (ptr : UInt64) (isInstance : Bool) (p : UInt64) :
    Protocol.readMethods bin ptr isInstance p = (methodsIn bin ptr isInstance, p) := by
  rw [(Protocol.readMethods_restores bin ptr isInstance).eq p, methodsIn]
  cases h : methodListAt bin ptr with
  | none => rw [Protocol.value_readMethods_of_none h isInstance p]
  | some list =>
      rw [Protocol.value_readMethods h, entries, reduceOption_map_range, List.map_filterMap]

/-- **The methods of a protocol are sorted**: those of the first two lists are required, those of
the other two optional, and those of the first and the third are called on instances.  Every list
is read by its own header. -/
theorem Protocol.create_sorted (bin : Binary) (pos : UInt64) :
    (Protocol.create bin).value pos = (bin.load ProtocolT pos).map fun raw =>
      { mangledName := (bin.peekStringAt (decodePtr bin raw.mangledName)).getD []
        optMethods := methodsIn bin raw.optionalInstanceMethods true ++
          methodsIn bin raw.optionalClassMethods false
        requiredMethods := methodsIn bin raw.instanceMethods true ++
          methodsIn bin raw.classMethods false
        properties := propertiesIn bin raw.instanceProperties } := by
  cases hload : bin.load ProtocolT pos with
  | none =>
      rw [Protocol.create, BinaryStream.value, BinaryStream.bind_apply, BinaryStream.peek_eq hload]
      rfl
  | some raw =>
      have hproperties : readProperties bin raw.instanceProperties pos =
          (propertiesIn bin raw.instanceProperties, pos) := by
        rw [(readProperties_restores bin _).eq pos, value_readProperties]
      rw [Protocol.create, BinaryStream.value, BinaryStream.bind_apply, BinaryStream.peek_eq hload]
      -- the blocks one after the other, each from the position at which the protocol is
      simp only [BinaryStream.bind_apply, BinaryStream.peekStringAt, Protocol.readMethods_eq,
        hproperties]
      rfl

end ICDump
