/-
What was declared is what is parsed.

The writer lays the declarations out, the parser reads its image, and what the parser has in the
end are the declared objects, in the order of the declarations (`parse_declared`).  It holds for
every image that shows the bytes that were written, whatever the form of the pointers in it.
A method comes back with what is stored for its implementation, which need not be its address.
-/
import Mathlib.Data.List.GetD
import ICDump.Writer.Objects

namespace ICDump

open Emit

variable {base : UInt64} {bin : Binary} {final : List UInt8} {form : PtrForm base}

/-! ### The image -/

section

variable (hbin : Shows bin base final)

include hbin

lemma emits_chain {n : ℕ} (protocolOffs : List ℕ) (chain : List (ClassRoSpec n)) :
    Emits final (emitChain form protocolOffs chain) (ChainAt bin form protocolOffs chain) := by
  induction chain with
  | nil => exact .pure rfl
  | cons ro chain ih =>
      exact ih.bind fun link => (emits_classRo hbin protocolOffs ro link).map fun off hoff hlink =>
        ⟨off, link, rfl, hoff, hlink⟩

lemma emits_class {n : ℕ} (protocolOffs : List ℕ) (cls : ClassSpec n) :
    Emits final (emitClass form protocolOffs cls) fun off =>
      ChainAt bin form protocolOffs (cls.cls :: cls.metas) (some off) :=
  (emits_chain hbin protocolOffs cls.metas).bind fun link =>
    (emits_classRo hbin protocolOffs cls.cls link).mono fun off hoff hlink =>
      ⟨off, link, rfl, hoff, hlink⟩

/-- All protocols and classes of an image are where the writer says. -/
lemma emits_image (spec : ImageSpec) : Emits final (emitImage form spec) fun places =>
    List.Forall₂ (fun proto => At base fun a => protocolAt bin a = some proto.value)
        spec.protocols places.1 ∧
      List.Forall₂ (fun cls off => ChainAt bin form places.1 (cls.cls :: cls.metas) (some off))
        spec.classes places.2 :=
  (Emits.emitEach (emits_protocol hbin) _).bind fun protocols =>
    (Emits.emitEach (emits_class hbin protocols) _).map fun _ hclasses hprotocols =>
      ⟨hprotocols, hclasses⟩

end

/-- The classes of a list are made one by one, each along its own chain. -/
lemma chainsOf_store (hbase : bin.imagebase = base) {n depth : ℕ} {protocols : Fin n → Protocol}
    {protocolOffs offs : List ℕ} {classes : List (ClassSpec n)}
    (hprotocols : ∀ i, protocolAt bin (protocolAddr bin form protocolOffs i) = some (protocols i))
    (hall : List.Forall₂ (fun cls off =>
      ChainAt bin form protocolOffs (cls.cls :: cls.metas) (some off)) classes offs)
    (hdepth : ∀ cls ∈ classes, cls.metas.length < depth) :
    (Parser.chainsOf bin depth (offs.map form.store)).map (Class.valueAlong bin) =
        (classes.map (ClassSpec.value protocols)).map some ∧
      (∀ entry ∈ offs.map form.store,
        (Link.chain (Class.superLink bin) depth (decodePtr bin entry)).isSome) ∧
      ∀ a ∈ (Parser.chainsOf bin depth (offs.map form.store)).flatMap (Parser.slotsAlong bin),
        ∃ i : Fin n, a = protocolAddr bin form protocolOffs i := by
  induction hall with
  | nil => simp [Parser.chainsOf]
  | @cons cls off classes offs hchain _ ih =>
      rw [List.forall_mem_cons] at hdepth
      obtain ⟨hvalues, hsome, hslots⟩ := ih hdepth.2
      obtain ⟨l, hl, hvalue, hmem⟩ := hchain.value hbase hprotocols
      obtain ⟨_, _, _, -, hclass, -⟩ := hchain.exists_cons
      have hdecode : Link.chain (Class.superLink bin) depth (decodePtr bin (form.store off)) =
          some l := by
        rw [hclass.decode_store hbase]
        exact Link.chain_mono hdepth.1 hl
      rw [List.map_cons, Parser.chainsOf, hdecode]
      refine ⟨?_, ?_, ?_⟩
      · rw [List.map_cons, List.map_cons, List.map_cons, hvalues, hvalue, chainValue_eq]
      · rw [List.forall_mem_cons, hdecode]
        exact ⟨rfl, hsome⟩
      · intro a ha
        rw [List.flatMap_cons, List.mem_append] at ha
        exact ha.elim (hmem a) (hslots a)

namespace ImageSpec

variable {spec : ImageSpec}

/-- The protocol that a class refers to. -/
def protocolOf (spec : ImageSpec) (i : Fin spec.protocols.length) : Protocol :=
  (spec.protocols.get i).value

/-- Every class of the image is made, with that many levels of recursion. -/
def Fits (spec : ImageSpec) (depth : ℕ) : Prop := ∀ cls ∈ spec.classes, cls.metas.length < depth

/-- The image has the bytes of the specification, and lists its protocols and classes. -/
structure ShownBy (spec : ImageSpec) (form : PtrForm base) (bin : Binary) : Prop where
  shows : Shows bin base (spec.memory form)
  protolist_eq : protolist bin = (spec.places form).1.map form.store
  classlist_eq : classlist bin = (spec.places form).2.map form.store

namespace ShownBy

variable {depth : ℕ} (h : spec.ShownBy form bin)

include h

lemma protocols : List.Forall₂ (fun proto => At base fun a => protocolAt bin a = some proto.value)
    spec.protocols (spec.places form).1 :=
  ((emits_image h.shows spec).holds magic (by decide) List.prefix_rfl).1

lemma classes : List.Forall₂ (fun cls off => ChainAt bin form (spec.places form).1
    (cls.cls :: cls.metas) (some off)) spec.classes (spec.places form).2 :=
  ((emits_image h.shows spec).holds magic (by decide) List.prefix_rfl).2

/-- The addresses in the list of protocols are decoded to the protocols. -/
lemma protocolAt_protolist : ((protolist bin).map (decodePtr bin)).map (protocolAt bin) =
    (spec.protocols.map ProtocolSpec.value).map some := by
  have hall : List.Forall₂ (fun proto off =>
      some proto.value = protocolAt bin (decodePtr bin (form.store off)))
      spec.protocols (spec.places form).1 :=
    h.protocols.imp fun _ _ hoff => (hoff.stored h.shows.imagebase).symm
  rw [h.protolist_eq, List.map_map, List.map_map, List.map_map]
  refine Eq.symm ?_
  rwa [← List.forall₂_eq_eq_eq, List.forall₂_map_left_iff, List.forall₂_map_right_iff]

/-- The slot for a protocol leads to a listed address. -/
lemma protocolAddr_mem (i : Fin spec.protocols.length) :
    protocolAddr bin form (spec.places form).1 i ∈ (protolist bin).map (decodePtr bin) := by
  have hi : i.1 < (spec.places form).1.length := h.protocols.length_eq ▸ i.isLt
  rw [h.protolist_eq, List.map_map, protocolAddr, List.getD_eq_getElem _ _ hi]
  exact List.mem_map_of_mem (List.getElem_mem hi)

/-- The protocol of the slot is the one that was declared. -/
lemma protocolAt_protocolAddr (i : Fin spec.protocols.length) :
    protocolAt bin (protocolAddr bin form (spec.places form).1 i) = some (spec.protocolOf i) := by
  have hi : i.1 < (spec.places form).1.length := h.protocols.length_eq ▸ i.isLt
  rw [protocolAddr, List.getD_eq_getElem _ _ hi]
  exact (h.protocols.get i.isLt hi).stored h.shows.imagebase

/-- All that is listed is a protocol. -/
lemma listed_eq : Parser.listed bin = (protolist bin).map (decodePtr bin) := by
  refine List.filter_eq_self.2 fun a ha => ?_
  have hmem := List.mem_map_of_mem (f := protocolAt bin) ha
  rw [h.protocolAt_protolist] at hmem
  obtain ⟨_, -, hvalue⟩ := List.mem_map.1 hmem
  rw [← hvalue, Option.isSome_some]

/-- The classes that are listed are made one by one. -/
lemma chainsOf_classlist (hdepth : spec.Fits depth) :
    (Parser.chainsOf bin depth (classlist bin)).map (Class.valueAlong bin) =
        (spec.classes.map (ClassSpec.value spec.protocolOf)).map some ∧
      (∀ entry ∈ classlist bin,
        (Link.chain (Class.superLink bin) depth (decodePtr bin entry)).isSome) ∧
      ∀ a ∈ (Parser.chainsOf bin depth (classlist bin)).flatMap (Parser.slotsAlong bin),
        ∃ i : Fin spec.protocols.length, a = protocolAddr bin form (spec.places form).1 i := by
  have hall := chainsOf_store h.shows.imagebase h.protocolAt_protocolAddr h.classes hdepth
  rw [← h.classlist_eq] at hall
  exact hall

/-- All that is adopted is listed. -/
lemma adopted_eq (hdepth : spec.Fits depth) :
    (Parser.adopted bin depth).filter (· ∉ Parser.listed bin) = [] := by
  refine List.filter_eq_nil_iff.2 fun a ha => ?_
  obtain ⟨i, rfl⟩ := (h.chainsOf_classlist hdepth).2.2 a (List.mem_of_mem_filter ha)
  have hmem := h.protocolAddr_mem i
  rw [← h.listed_eq] at hmem
  simpa using hmem

lemma parse_isSome (hdepth : spec.Fits depth) : (Parser.parse bin depth).1.isSome :=
  (Parser.parse_spec bin depth).2.2.2.2 (h.chainsOf_classlist hdepth).2.1

/-- The protocols of the store are the declared protocols. -/
lemma protocolValues_eq (hdepth : spec.Fits depth) :
    (Parser.parse bin depth).2.store.protocolValues = spec.protocols.map ProtocolSpec.value := by
  obtain ⟨hleads, haddresses, -⟩ := Parser.parse_spec bin depth
  have hmap := (hleads.wellFormed Store.wellFormed_initial).map_protocolValues
  rw [haddresses, h.adopted_eq hdepth, List.append_nil, h.listed_eq, h.protocolAt_protolist] at hmap
  exact List.map_injective_iff.2 (Option.some_injective _) hmap

/-- The classes of the store are the declared classes. -/
lemma classValues_eq (hdepth : spec.Fits depth) :
    (Parser.parse bin depth).2.store.classValues =
      spec.classes.map fun cls => (cls.value spec.protocolOf).map some := by
  obtain ⟨-, -, hclasses, -⟩ := Parser.parse_spec bin depth
  have hfilter : (Parser.chainsOf bin depth (classlist bin)).filterMap (Class.valueAlong bin) =
      spec.classes.map (ClassSpec.value spec.protocolOf) := by
    rw [← reduceOption_map_some (spec.classes.map _), ← (h.chainsOf_classlist hdepth).1,
      List.reduceOption, List.filterMap_map]
    rfl
  rw [hclasses, hfilter, List.map_map]
  rfl

/-- **What was declared is what is parsed**, whatever the form of the pointers and the formats of
the lists: the protocols and classes are there by value, in the order of their declarations, and
nothing else is.  Methods are there with what is stored for their implementations. -/
theorem parse_declared (hdepth : spec.Fits depth) :
    (Parser.parse bin depth).1.isSome ∧
      (Parser.parse bin depth).2.store.protocolValues = spec.protocols.map ProtocolSpec.value ∧
      (Parser.parse bin depth).2.store.classValues =
        spec.classes.map fun cls => (cls.value spec.protocolOf).map some :=
  ⟨h.parse_isSome hdepth, h.protocolValues_eq hdepth, h.classValues_eq hdepth⟩

end ShownBy

/-! ### The image of the writer -/

lemma entriesOf_flatMap (words : List UInt64) : entriesOf (words.flatMap bytes64) = words := by
  induction words with
  | nil => rfl
  | cons w words ih =>
      rw [List.flatMap_cons]
      show word64 ((bytes64 w).getD · 0) 0 :: entriesOf (words.flatMap bytes64) = _
      rw [ih, word64_eq (w := w) (by simp)]

/-- The image that the writer makes lists what it has written, in whichever segment the lists
are. -/
lemma shownBy_binary {segment : String}
    (hsegment : segment ∈ ["__DATA", "__DATA_CONST", "__DATA_DIRTY"])
    (hlength : (spec.memory form).length < 2 ^ 31) :
    spec.ShownBy form (spec.binary form segment) where
  shows := shows_imageOf hlength
  protolist_eq := by
    have hsection : getObjcSection (spec.binary form segment) "__objc_protolist" =
        some (((spec.places form).1.map form.store).flatMap bytes64) := by
      rw [List.flatMap_map]
      simp only [List.mem_cons, List.not_mem_nil, or_false] at hsegment
      rcases hsegment with rfl | rfl | rfl <;> rfl
    rw [protolist, hsection, Option.map_some, Option.getD_some, entriesOf_flatMap]
  classlist_eq := by
    have hsection : getObjcSection (spec.binary form segment) "__objc_classlist" =
        some (((spec.places form).2.map form.store).flatMap bytes64) := by
      rw [List.flatMap_map]
      simp only [List.mem_cons, List.not_mem_nil, or_false] at hsegment
      rcases hsegment with rfl | rfl | rfl <;> rfl
    rw [classlist, hsection, Option.map_some, Option.getD_some, entriesOf_flatMap]

end ImageSpec

/-! ### Forms of pointers -/

lemma and_ptrMask {x : UInt64} (h : x.toNat < 2 ^ 51) : x &&& ((1 : UInt64) <<< 51 - 1) = x := by
  apply UInt64.toNat_inj.1
  have hmask : ((1 : UInt64) <<< 51 - 1).toNat = 2 ^ 51 - 1 := by decide
  rw [UInt64.toNat_and, hmask, Nat.and_two_pow_sub_one_eq_mod, Nat.mod_eq_of_lt h]

lemma and_fastDataMask {x : UInt64} (h : x.toNat < 2 ^ 47) (hx : x.toNat % 8 = 0) :
    x &&& ObjcClassT.fastDataMask = x := by
  apply UInt64.toNat_inj.1
  have hmask : ObjcClassT.fastDataMask.toNat = (2 ^ 44 - 1) <<< 3 := by decide
  obtain ⟨k, hk⟩ := Nat.dvd_of_mod_eq_zero hx
  have hshift : x.toNat = k <<< 3 := by rw [hk, Nat.shiftLeft_eq, Nat.mul_comm]
  rw [UInt64.toNat_and, hmask, hshift, ← Nat.shiftLeft_and_distrib,
    Nat.and_two_pow_sub_one_eq_mod, Nat.mod_eq_of_lt (by omega)]

section

variable {base : UInt64} {off : ℕ}

lemma toNat_base_add (hlt : base.toNat < 2 ^ 46) (hoff : off < 2 ^ 31) :
    (base + .ofNat off).toNat = base.toNat + off := by
  rw [UInt64.toNat_add, toNat_ofNat (by omega), Nat.mod_eq_of_lt (by omega)]

/-- Without its upper bits, a pointer is decoded whether it is an offset into the image or an
address. -/
lemma decodePtr_of_masked (hle : 2 ^ 31 ≤ base.toNat) (hlt : base.toNat < 2 ^ 46)
    (hoff : off < 2 ^ 31) {bin : Binary} (hbase : bin.imagebase = base) {ptr : UInt64}
    (h : ptr &&& ((1 : UInt64) <<< 51 - 1) = .ofNat off ∨
      ptr &&& ((1 : UInt64) <<< 51 - 1) = base + .ofNat off) :
    decodePtr bin ptr = base + .ofNat off := by
  rcases h with h | h
  · have hbelow : (0 : UInt64) < bin.imagebase ∧ UInt64.ofNat off < bin.imagebase := by
      rw [hbase, UInt64.lt_iff_toNat_lt, UInt64.lt_iff_toNat_lt, toNat_ofNat (by omega)]
      exact ⟨Nat.lt_of_lt_of_le (by decide) hle, Nat.lt_of_lt_of_le hoff hle⟩
    rw [decodePtr, h, if_pos hbelow, hbase, UInt64.add_comm]
  · have habove : ¬ base + .ofNat off < bin.imagebase := by
      rw [hbase, UInt64.lt_iff_toNat_lt, toNat_base_add hlt hoff]
      omega
    rw [decodePtr, h, if_neg fun hand => habove hand.2]

end

/-- Every pointer may be stored as an offset into the image or as an address, with any upper
bits. -/
def PtrForm.ofMasked {base : UInt64} (hle : 2 ^ 31 ≤ base.toNat) (hlt : base.toNat < 2 ^ 46)
    (store storeData : ℕ → UInt64)
    (hstore : ∀ off < 2 ^ 31, store off &&& ((1 : UInt64) <<< 51 - 1) = .ofNat off ∨
      store off &&& ((1 : UInt64) <<< 51 - 1) = base + .ofNat off)
    (hstoreData : ∀ off < 2 ^ 31, off % 8 = 0 →
      storeData off &&& ObjcClassT.fastDataMask = .ofNat off ∨
        storeData off &&& ObjcClassT.fastDataMask = base + .ofNat off) : PtrForm base where
  store := store
  storeData := storeData
  store_ne_zero := by
    intro off hpos hoff hzero
    have hmasked := hstore off hoff
    rw [hzero, UInt64.zero_and] at hmasked
    have htoNat := hmasked.imp (congrArg UInt64.toNat) (congrArg UInt64.toNat)
    rw [toNat_base_add hlt hoff, toNat_ofNat (by omega)] at htoNat
    have hzero' : (0 : UInt64).toNat = 0 := rfl
    omega
  decode_store := fun _ hoff _ hbase => decodePtr_of_masked hle hlt hoff hbase (hstore _ hoff)
  decode_storeData := by
    intro off _ hoff haligned bin hbase
    refine decodePtr_of_masked hle hlt hoff hbase ?_
    rcases hstoreData off hoff haligned with h | h
    · rw [h]
      exact Or.inl (and_ptrMask (by rw [toNat_ofNat (by omega)]; omega))
    · rw [h]
      exact Or.inr (and_ptrMask (by rw [toNat_base_add hlt hoff]; omega))

namespace ImageSpec

lemma or_and (x y mask : UInt64) : (x ||| y) &&& mask = x &&& mask ||| y &&& mask :=
  UInt64.toBitVec_inj.1 BitVec.and_or_distrib_right

/-- Offsets into the image, with the highest bit set. -/
def sampleForm : PtrForm 0x100000000 :=
  .ofMasked (by decide) (by decide) (fun off => .ofNat off ||| (1 : UInt64) <<< 63)
    (fun off => .ofNat off)
    (by
      intro off hoff
      have htag : (1 : UInt64) <<< 63 &&& ((1 : UInt64) <<< 51 - 1) = 0 := by decide
      rw [or_and, htag, UInt64.or_zero]
      exact Or.inl (and_ptrMask (by rw [toNat_ofNat (by omega)]; omega)))
    (fun off hoff haligned => Or.inl <| and_fastDataMask (by rw [toNat_ofNat (by omega)]; omega)
      (by rwa [toNat_ofNat (by omega)]))

/-- A string of one letter. -/
def letter (c : Char) (h : 0 < c.toNat ∧ c.toNat < 256) : CString := ⟨[c], by simpa using h⟩

/-- The protocol `P` with an optional class method `m`, and a class `C` with a metaclass.  The class
adopts `P` and has the method `f` in a list of small methods, and the metaclass has `g`. -/
def sampleSpec : ImageSpec where
  protocols :=
    [{ mangledName := letter 'P' (by decide)
       instanceMethods := none
       classMethods := none
       optionalInstanceMethods := none
       optionalClassMethods := some (.big [⟨letter 'm' (by decide), letter 'v' (by decide), 0⟩])
       instanceProperties := some [] }]
  classes :=
    [{ cls :=
         { name := letter 'C' (by decide)
           flags := 0
           instanceStart := 8
           instanceSize := 16
           reserved := 0
           baseMethodList := some (.small [⟨letter 'f' (by decide), letter 'v' (by decide), -4⟩])
           baseProtocols := some [0]
           ivars := some [⟨letter 'i' (by decide), letter 'i' (by decide)⟩]
           baseProperties := none }
       metas :=
         [{ name := letter 'C' (by decide)
            flags := 1
            instanceStart := 40
            instanceSize := 40
            reserved := 0
            baseMethodList := some (.big [⟨letter 'g' (by decide), letter 'v' (by decide), 7⟩])
            baseProtocols := none
            ivars := none
            baseProperties := none }] }]

lemma length_sample : (sampleSpec.memory sampleForm).length < 2 ^ 31 := by
  decide +kernel

/-- The methods of the class `C` are `g` and `f`, and the protocol that it holds is `P`. -/
theorem parse_declared_sample :
    ((Parser.parse (sampleSpec.binary sampleForm "__DATA_CONST") 2).2.store.classValues.map
      fun cls => (cls.methods, cls.protocols)) =
      [([⟨['g'], ['v'], 7, false⟩, ⟨['f'], ['v'], 0xfffffffffffffffc, true⟩],
        [some ⟨['P'], [⟨['m'], ['v'], 0, false⟩], [], []⟩])] := by
  have hshown : sampleSpec.ShownBy sampleForm (sampleSpec.binary sampleForm "__DATA_CONST") :=
    shownBy_binary (by simp) length_sample
  have hfits : sampleSpec.Fits 2 := List.forall_mem_singleton.2 (Nat.lt_succ_self 1)
  rw [(hshown.parse_declared hfits).2.2]
  rfl

end ImageSpec

end ICDump
