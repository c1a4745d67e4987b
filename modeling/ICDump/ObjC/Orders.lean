/-
The order of the lists of an image.

The parser goes through `__objc_protolist` and `__objc_classlist` in their order, and the store
grows as it goes.  Two images that list the same protocols and classes in another order, and agree
wherever these lead to, lead to the same objects in another order (`parse_reorders`).  So a program
that looks an object up by a name that no other object has does not see the order of the lists.

The lists are bytes of the image like all others.  So the images are not asked to agree elsewhere,
and where a list is, they may differ.
-/
import ICDump.ObjC.Parse

namespace ICDump

/-! ### Looking up -/

namespace Registry

variable {κ ι α : Type*} [DecidableEq ι] {key : α → κ} {r : Registry κ ι α}

/-- When no two elements have the same key, looking up a key gives the element that has it. -/
lemma Indexed.bind_get?_iff (h : r.Indexed key) (hids : r.ids.Nodup)
    (hkeys : (r.elements.map fun e => key e.2).Nodup) {k : κ} {x : α} :
    (r.lookup k).bind r.get? = some x ↔ x ∈ r.elements.map Prod.snd ∧ key x = k := by
  constructor
  · intro hx
    obtain ⟨i, hi, hget⟩ := Option.bind_eq_some_iff.1 hx
    obtain ⟨before, y, after, hr, hy, -⟩ := h.last hi
    have hmem : (i, y) ∈ r.elements := by simp [hr]
    obtain rfl : y = x := Option.some.inj ((get?_of_mem hids hmem).symm.trans hget)
    exact ⟨List.mem_map_of_mem hmem, hy⟩
  · rintro ⟨hx, rfl⟩
    obtain ⟨⟨i, y⟩, hmem, rfl⟩ := List.mem_map.1 hx
    obtain ⟨j, hj⟩ := Option.isSome_iff_exists.1 ((h.isSome_iff (key y)).2 ⟨_, hmem, rfl⟩)
    obtain ⟨before, z, after, hr, hz, -⟩ := h.last hj
    have hmem' : (j, z) ∈ r.elements := by simp [hr]
    obtain ⟨rfl, rfl⟩ := Prod.mk.inj (List.inj_on_of_nodup_map hkeys hmem' hmem hz)
    rw [hj, Option.bind_some, get?_of_mem hids hmem]

end Registry

namespace Store

/-- The protocol that `get_protocol` leads to. -/
def protocolNamed (s : Store) (name : Str) : Option Protocol :=
  (s.metadata.getProtocol name).bind s.deref

/-- The class that `get_class` leads to, with the protocols that it points to. -/
def classNamed (s : Store) (name : Str) : Option (Class (Option Protocol)) :=
  ((s.metadata.getClass name).bind s.metadata.classes.get?).map (Class.map s.deref)

variable {bin : Binary} {s : Store}

lemma WellFormed.protocolNamed_iff (h : s.WellFormed bin)
    (hnames : (s.protocolValues.map Protocol.mangledName).Nodup) {name : Str} {proto : Protocol} :
    s.protocolNamed name = some proto ↔ proto ∈ s.protocolValues ∧ proto.mangledName = name := by
  rw [protocolValues, List.map_map] at hnames
  have hlookup : s.protocolNamed name = ((s.metadata.protocols.lookup name).bind
      s.metadata.protocols.get?).map Registered.protocol := by
    rw [Option.map_bind]
    rfl
  have hiff := fun x => h.protocols_indexed.bind_get?_iff h.protocols_nodup hnames
    (k := name) (x := x)
  rw [hlookup, Option.map_eq_some_iff]
  simp only [hiff]
  constructor
  · rintro ⟨x, ⟨hx, rfl⟩, rfl⟩
    obtain ⟨e, he, rfl⟩ := List.mem_map.1 hx
    exact ⟨List.mem_map_of_mem he, rfl⟩
  · rintro ⟨hproto, rfl⟩
    obtain ⟨e, he, rfl⟩ := List.mem_map.1 hproto
    exact ⟨e.2, ⟨List.mem_map_of_mem he, rfl⟩, rfl⟩

lemma WellFormed.classNamed_iff (h : s.WellFormed bin)
    (hnames : (s.classValues.map Class.name).Nodup) {name : Str}
    {cls : Class (Option Protocol)} :
    s.classNamed name = some cls ↔ cls ∈ s.classValues ∧ cls.name = name := by
  rw [classValues, List.map_map] at hnames
  have hiff := fun x => h.classes_indexed.bind_get?_iff h.classes_nodup hnames
    (k := name) (x := x)
  rw [classNamed, Metadata.getClass, Option.map_eq_some_iff]
  simp only [hiff]
  constructor
  · rintro ⟨x, ⟨hx, rfl⟩, rfl⟩
    obtain ⟨e, he, rfl⟩ := List.mem_map.1 hx
    exact ⟨List.mem_map_of_mem he, rfl⟩
  · rintro ⟨hcls, rfl⟩
    obtain ⟨e, he, rfl⟩ := List.mem_map.1 hcls
    exact ⟨e.2, ⟨List.mem_map_of_mem he, rfl⟩, rfl⟩

end Store

/-! ### Images that agree where it matters -/

namespace Class

/-- What is read at the address of a class for the class alone: its structures, and the class with
the addresses in the slots of its list of protocols. -/
def valueAlone (bin : Binary) (a : UInt64) : Option (Header × Class UInt64) :=
  (header bin a).map fun h => (h, build bin h none (slots bin a))

variable {bin bin' : Binary} {a : UInt64}

lemma header_of_valueAlone (h : valueAlone bin' a = valueAlone bin a) :
    header bin' a = header bin a := by
  have hmap := congrArg (Option.map Prod.fst) h
  rwa [valueAlone, valueAlone, Option.map_map, Option.map_map, Function.comp_def, Function.comp_def,
    Option.map_id', Option.map_id'] at hmap

lemma slots_of_valueAlone (h : valueAlone bin' a = valueAlone bin a) :
    slots bin' a = slots bin a := by
  have hheader := header_of_valueAlone h
  rw [valueAlone, valueAlone, hheader] at h
  cases hh : header bin a with
  | none =>
      rw [slots, slots, hheader, hh]
      rfl
  | some hd =>
      rw [hh] at h
      exact congrArg (Class.protocols ∘ Prod.snd) (Option.some.inj h)

/-- What a class is made of besides its super class and its protocols. -/
lemma build_of_valueAlone (h : valueAlone bin' a = valueAlone bin a) {hd : Header}
    (hh : header bin a = some hd) {P : Type} (super : Option (Class P)) (protocols : List P) :
    build bin' hd super protocols = build bin hd super protocols := by
  rw [valueAlone, valueAlone, header_of_valueAlone h, hh] at h
  have hbuild := congrArg Prod.snd (Option.some.inj h)
  have hmethods : ownMethods bin' hd = ownMethods bin hd := congrArg Class.methods hbuild
  have hivars := congrArg Class.ivars hbuild
  have hproperties := congrArg Class.properties hbuild
  rw [build, build, hmethods]
  dsimp only [build] at hivars hproperties
  rw [hivars, hproperties]

end Class

namespace Parser

/-- The second image has the lists of the first in another order, and where the lists lead to, it
has the same protocols and classes.  Elsewhere it may be any other image. -/
structure Reorders (bin bin' : Binary) (depth : ℕ) : Prop where
  imagebase : bin'.imagebase = bin.imagebase
  protolist_perm : (protolist bin').Perm (protolist bin)
  classlist_perm : (classlist bin').Perm (classlist bin)
  /-- The classes that the list leads to, and their super classes. -/
  classes : ∀ l ∈ chainsOf bin depth (classlist bin), ∀ a ∈ l,
    Class.valueAlone bin' a = Class.valueAlone bin a
  listed : ∀ entry ∈ protolist bin,
    protocolAt bin' (decodePtr bin entry) = protocolAt bin (decodePtr bin entry)
  /-- The protocols that these classes adopt. -/
  adopted : ∀ l ∈ chainsOf bin depth (classlist bin), ∀ a ∈ slotsAlong bin l,
    protocolAt bin' a = protocolAt bin a

variable {bin bin' : Binary} {depth : ℕ}

/-- The chains of the entries of a list, when all of them are short enough. -/
lemma chainsOf_eq_filterMap {entries : List UInt64} (h : ∀ entry ∈ entries,
    (Link.chain (Class.superLink bin) depth (decodePtr bin entry)).isSome) :
    chainsOf bin depth entries = entries.filterMap fun entry =>
      Link.chain (Class.superLink bin) depth (decodePtr bin entry) := by
  induction entries with
  | nil => rfl
  | cons entry entries ih =>
      rw [List.forall_mem_cons] at h
      obtain ⟨l, hl⟩ := Option.isSome_iff_exists.1 h.1
      rw [chainsOf, hl, List.filterMap_cons, hl, ih h.2]

namespace Reorders

lemma decodePtr_eq (h : Reorders bin bin' depth) : decodePtr bin' = decodePtr bin := by
  funext ptr
  rw [decodePtr, decodePtr, h.imagebase]

lemma superLink_eq (h : Reorders bin bin' depth) {a : UInt64}
    (ha : Class.valueAlone bin' a = Class.valueAlone bin a) :
    Class.superLink bin' a = Class.superLink bin a := by
  rw [Class.superLink, Class.superLink, Class.header_of_valueAlone ha, h.decodePtr_eq]

/-- The chain of an entry is the same. -/
lemma chain_eq (h : Reorders bin bin' depth) {entry : UInt64} (hentry : entry ∈ classlist bin)
    (hchains : ∀ entry ∈ classlist bin,
      (Link.chain (Class.superLink bin) depth (decodePtr bin entry)).isSome) :
    Link.chain (Class.superLink bin') depth (decodePtr bin' entry) =
      Link.chain (Class.superLink bin) depth (decodePtr bin entry) := by
  obtain ⟨l, hl⟩ := Option.isSome_iff_exists.1 (hchains entry hentry)
  have hmem : l ∈ chainsOf bin depth (classlist bin) := by
    rw [chainsOf_eq_filterMap hchains]
    exact List.mem_filterMap.2 ⟨entry, hentry, hl⟩
  rw [h.decodePtr_eq, hl]
  exact Link.chain_congr hl fun a ha => h.superLink_eq (h.classes l hmem a ha)

/-- The chains are the same, in another order, unless one of them is too long. -/
lemma perm_chainsOf (h : Reorders bin bin' depth) (hchains : ∀ entry ∈ classlist bin,
    (Link.chain (Class.superLink bin) depth (decodePtr bin entry)).isSome) :
    (∀ entry ∈ classlist bin',
        (Link.chain (Class.superLink bin') depth (decodePtr bin' entry)).isSome) ∧
      (chainsOf bin' depth (classlist bin')).Perm (chainsOf bin depth (classlist bin)) := by
  have heq : ∀ entry ∈ classlist bin',
      Link.chain (Class.superLink bin') depth (decodePtr bin' entry) =
        Link.chain (Class.superLink bin) depth (decodePtr bin entry) :=
    fun entry hentry => h.chain_eq (h.classlist_perm.subset hentry) hchains
  have hchains' : ∀ entry ∈ classlist bin',
      (Link.chain (Class.superLink bin') depth (decodePtr bin' entry)).isSome := by
    intro entry hentry
    rw [heq entry hentry]
    exact hchains entry (h.classlist_perm.subset hentry)
  refine ⟨hchains', ?_⟩
  rw [chainsOf_eq_filterMap hchains, chainsOf_eq_filterMap hchains', List.filterMap_congr heq]
  exact h.classlist_perm.filterMap _

/-- The listed protocols are the same, in another order. -/
lemma perm_listed (h : Reorders bin bin' depth) :
    (Parser.listed bin').Perm (Parser.listed bin) := by
  have hfilter : Parser.listed bin' = ((protolist bin').map (decodePtr bin)).filter
      fun a => (protocolAt bin a).isSome := by
    rw [Parser.listed, h.decodePtr_eq]
    refine List.filter_congr fun a ha => ?_
    obtain ⟨entry, hentry, rfl⟩ := List.mem_map.1 ha
    rw [h.listed entry (h.protolist_perm.subset hentry)]
  rw [hfilter, Parser.listed]
  exact (h.protolist_perm.map _).filter _

lemma slotsAlong_eq (h : Reorders bin bin' depth) {l : List UInt64}
    (hl : l ∈ chainsOf bin depth (classlist bin)) : slotsAlong bin' l = slotsAlong bin l :=
  List.flatMap_congr fun a ha =>
    Class.slots_of_valueAlone (h.classes l hl a (List.mem_reverse.1 ha))

/-- The class of a chain is the same. -/
lemma valueAlong_eq (h : Reorders bin bin' depth) {l : List UInt64}
    (hl : l ∈ chainsOf bin depth (classlist bin)) :
    Class.valueAlong bin' l = Class.valueAlong bin l := by
  have hclasses := h.classes l hl
  have hadopted : ∀ a ∈ l, ∀ b ∈ Class.slots bin a, protocolAt bin' b = protocolAt bin b :=
    fun a ha b hb => h.adopted l hl b
      (List.mem_flatMap.2 ⟨a, List.mem_reverse.2 ha, hb⟩)
  clear hl
  induction l with
  | nil => rfl
  | cons a l ih =>
      obtain ⟨ha, hclasses'⟩ := List.forall_mem_cons.1 hclasses
      obtain ⟨hslots, hadopted'⟩ := List.forall_mem_cons.1 hadopted
      rw [Class.valueAlong, Class.valueAlong, Class.header_of_valueAlone ha,
        Class.slots_of_valueAlone ha, ih hclasses' hadopted',
        List.filterMap_congr fun b hb => hslots b hb]
      cases hh : Class.header bin a with
      | none => rw [Option.map_none, Option.map_none]
      | some hd => rw [Option.map_some, Option.map_some, Class.build_of_valueAlone ha hh]

/-- What the classes adopt is the same, in another order. -/
lemma perm_adopted (h : Reorders bin bin' depth)
    (hperm : (chainsOf bin' depth (classlist bin')).Perm (chainsOf bin depth (classlist bin))) :
    (Parser.adopted bin' depth).Perm (Parser.adopted bin depth) := by
  have hslots : (chainsOf bin' depth (classlist bin')).flatMap (slotsAlong bin') =
      (chainsOf bin' depth (classlist bin')).flatMap (slotsAlong bin) :=
    List.flatMap_congr fun l hl => h.slotsAlong_eq (hperm.subset hl)
  have hfilter : Parser.adopted bin' depth = ((chainsOf bin' depth (classlist bin')).flatMap
      (slotsAlong bin)).filter fun a => (protocolAt bin a).isSome := by
    rw [Parser.adopted, hslots]
    refine List.filter_congr fun a ha => ?_
    obtain ⟨l, hl, hmem⟩ := List.mem_flatMap.1 ha
    rw [h.adopted l (hperm.subset hl) a hmem]
  rw [hfilter, Parser.adopted]
  exact (hperm.flatMap_right _).filter _

/-- Whatever comes to the store is the same. -/
lemma protocolAt_eq (h : Reorders bin bin' depth) {a : UInt64}
    (ha : a ∈ Parser.listed bin ∨ a ∈ Parser.adopted bin depth) :
    protocolAt bin' a = protocolAt bin a := by
  rcases ha with ha | ha
  · obtain ⟨entry, hentry, rfl⟩ := List.mem_map.1 (List.mem_filter.1 ha).1
    exact h.listed entry hentry
  · obtain ⟨l, hl, hmem⟩ := List.mem_flatMap.1 (List.mem_filter.1 ha).1
    exact h.adopted l hl a hmem

end Reorders

/-- **The order of the lists is the order of the objects, and nothing else.**  What a name leads to
does not depend on it when no other object has the name. -/
theorem parse_reorders (h : Reorders bin bin' depth) (hreturns : (parse bin depth).1.isSome) :
    (parse bin' depth).1.isSome ∧
      (parse bin' depth).2.store.protocolValues.Perm (parse bin depth).2.store.protocolValues ∧
      (parse bin' depth).2.store.classValues.Perm (parse bin depth).2.store.classValues ∧
      (((parse bin depth).2.store.protocolValues.map Protocol.mangledName).Nodup → ∀ name,
        (parse bin' depth).2.store.protocolNamed name =
          (parse bin depth).2.store.protocolNamed name) ∧
      (((parse bin depth).2.store.classValues.map Class.name).Nodup → ∀ name,
        (parse bin' depth).2.store.classNamed name =
          (parse bin depth).2.store.classNamed name) := by
  obtain ⟨hleads, haddresses, hvalues, hiff⟩ := parse_spec bin depth
  obtain ⟨hleads', haddresses', hvalues', hiff'⟩ := parse_spec bin' depth
  have hwell := hleads.wellFormed Store.wellFormed_initial
  have hwell' := hleads'.wellFormed Store.wellFormed_initial
  obtain ⟨hchains', hperm⟩ := h.perm_chainsOf (hiff.1 hreturns)
  have hprotocols : (parse bin' depth).2.store.protocolValues.Perm
      (parse bin depth).2.store.protocolValues := by
    have hlisted := h.perm_listed
    have hmem : ∀ a, a ∉ listed bin' ↔ a ∉ listed bin := fun a => not_congr hlisted.mem_iff
    have hall : (parse bin' depth).2.store.addresses.Perm
        (parse bin depth).2.store.addresses := by
      rw [haddresses, haddresses']
      simp only [hmem]
      exact hlisted.append ((h.perm_adopted hperm).filter _)
    have hsame : (parse bin' depth).2.store.addresses.map (protocolAt bin') =
        (parse bin' depth).2.store.addresses.map (protocolAt bin) := by
      refine List.map_congr_left fun a ha => h.protocolAt_eq ?_
      have ha' := hall.subset ha
      rw [haddresses] at ha'
      exact (List.mem_append.1 ha').imp_right fun ha => List.mem_of_mem_filter ha
    have hmap := hall.map (protocolAt bin)
    rw [← hsame, ← hwell.map_protocolValues, ← hwell'.map_protocolValues] at hmap
    exact (List.map_perm_map_iff (Option.some_injective _)).1 hmap
  have hclasses : (parse bin' depth).2.store.classValues.Perm
      (parse bin depth).2.store.classValues := by
    rw [hvalues, hvalues', List.filterMap_congr fun l hl => h.valueAlong_eq (hperm.subset hl)]
    exact (hperm.filterMap _).map _
  refine ⟨hiff'.2 hchains', hprotocols, hclasses, fun hnames name => ?_, fun hnames name => ?_⟩
  · refine Option.ext fun proto => ?_
    rw [hwell.protocolNamed_iff hnames,
      hwell'.protocolNamed_iff ((hprotocols.map _).nodup_iff.2 hnames), hprotocols.mem_iff]
  · refine Option.ext fun cls => ?_
    rw [hwell.classNamed_iff hnames,
      hwell'.classNamed_iff ((hclasses.map _).nodup_iff.2 hnames), hclasses.mem_iff]

/-- The class at `0x100` and its metaclass at `0x140`, in the list at `0x800`. -/
def pairBinary (bytes : List UInt8) : Binary :=
  { sampleBinary sampleProtolist bytes with
    segmentFromVirtualAddress := fun v =>
      ((sampleBinary sampleProtolist bytes).segmentFromVirtualAddress v).map fun seg =>
        { seg with
          content :=
            ⟨fun i => if 0x800 ≤ i ∧ i < 0x810 then bytes.getD (i - 0x800) 0
              else seg.content.data i, seg.content.size⟩ } }

/-- They may be listed the other way round. -/
theorem parse_reorders_pair :
    (parse (pairBinary [0x40, 1, 0, 0, 0, 0, 0, 0, 0, 1, 0, 0, 0, 0, 0, 0])
        2).2.store.classValues.Perm
      (parse (pairBinary [0, 1, 0, 0, 0, 0, 0, 0, 0x40, 1, 0, 0, 0, 0, 0, 0])
        2).2.store.classValues := by
  generalize hbin : pairBinary [0, 1, 0, 0, 0, 0, 0, 0, 0x40, 1, 0, 0, 0, 0, 0, 0] = bin
  generalize hbin' : pairBinary [0x40, 1, 0, 0, 0, 0, 0, 0, 0, 1, 0, 0, 0, 0, 0, 0] = bin'
  have hclasslist : classlist bin = [0x100, 0x140] := by subst hbin; rfl
  have hprotolist : protolist bin = [0x400] := by subst hbin; rfl
  have hchains : chainsOf bin 2 (classlist bin) = [[0x100, 0x140], [0x140]] := by subst hbin; rfl
  have hclass : Class.valueAlone bin' 0x100 = Class.valueAlone bin 0x100 := by
    subst hbin hbin'
    decide +kernel
  have hmeta : Class.valueAlone bin' 0x140 = Class.valueAlone bin 0x140 := by
    subst hbin hbin'
    decide +kernel
  have hslots : slotsAlong bin [0x100, 0x140] = [0x400, 0x400] ∧
      slotsAlong bin [0x140] = [0x400] := by
    subst hbin
    exact ⟨rfl, rfl⟩
  have hprotocol : protocolAt bin' 0x400 = protocolAt bin 0x400 := by
    subst hbin hbin'
    decide +kernel
  have hreorders : Reorders bin bin' 2 :=
    { imagebase := by subst hbin hbin'; rfl
      protolist_perm := by subst hbin hbin'; exact .refl _
      classlist_perm := by
        rw [hclasslist]
        subst hbin'
        exact .swap 0x100 0x140 []
      classes := by
        rw [hchains, List.forall_mem_cons, List.forall_mem_cons, List.forall_mem_singleton,
          List.forall_mem_singleton, List.forall_mem_singleton]
        exact ⟨⟨hclass, hmeta⟩, hmeta⟩
      listed := by
        rw [hprotolist]
        refine List.forall_mem_singleton.2 ?_
        subst hbin
        exact hprotocol
      adopted := by
        rw [hchains, List.forall_mem_cons, List.forall_mem_singleton, hslots.1, hslots.2,
          List.forall_mem_cons, List.forall_mem_singleton]
        exact ⟨⟨hprotocol, hprotocol⟩, hprotocol⟩ }
  refine (parse_reorders hreorders ((parse_spec bin 2).2.2.2.2 ?_)).2.2.1
  rw [hclasslist]
  subst hbin
  exact List.forall_mem_cons.2 ⟨rfl, List.forall_mem_singleton.2 rfl⟩

end Parser

end ICDump
