/-
Whole runs of the parser.

`parse_spec` says what `Parser::parse` has made when it stops: which addresses the
registered protocols were decoded from, in order, and which classes there are.  All the
steps of a run are actions of `storeSystem`, so the invariant of the store holds at every
point of it; `parse_coherent` reads this as ownership and lookup of the metadata.
-/
import ICDump.ObjC.Runs

namespace ICDump

open ParserM

variable {bin : Binary}

namespace Parser

/-! ### `process_protocols` -/

/-- From `s`, the protocols at the addresses `locations` are listed, and the state is `s'`. -/
structure Lists (bin : Binary) (s : Parser) (locations : List UInt64) (s' : Parser) : Prop where
  leads : Leads bin s s'
  classes : s'.store.metadata.classes = s.store.metadata.classes
  addresses : s'.store.addresses =
    s.store.addresses ++ locations.filter fun a => (protocolAt bin a).isSome
  /-- What is listed and can be decoded is cached. -/
  cache : ∀ a, s'.store.cache a = none ↔
    s.store.cache a = none ∧ (a ∈ locations → protocolAt bin a = none)

lemma processProtocol_spec (bin : Binary) (s : Parser) (entry : UInt64) :
    ∃ s', processProtocol bin entry s = (some (), s') ∧ Lists bin s [decodePtr bin entry] s' := by
  have hread := onStream_protocol bin { s with pos := decodePtr bin entry }
  cases ha : protocolAt bin (decodePtr bin entry) with
  | none =>
      rw [ha] at hread
      refine ⟨_, scopedStream_eq (Attempt.bind_of_some hread), .of_eq rfl rfl, rfl, ?_, ?_⟩
      · simp [ha]
      · intro a
        refine (and_iff_left ?_).symm
        rintro hmem
        rw [List.mem_singleton.1 hmem, ha]
  | some proto =>
      rw [ha] at hread
      refine ⟨_, scopedStream_eq (Attempt.bind_of_some hread), ?_, rfl, ?_, ?_⟩
      · exact (Leads.perform (s := s) (a := .listProtocol (decodePtr bin entry) proto) ha).trans
          (.of_eq rfl rfl)
      · simp [Store.apply, Store.addProtocol, Store.addresses, ha]
      · intro a
        -- the entry itself is cached now, any other address is cached if it was before
        by_cases hloc : a = decodePtr bin entry
        · simp [Store.apply, hloc, ha]
        · simp [Store.apply, Store.addProtocol, hloc]

/-- The whole of `__objc_protolist` is listed. -/
lemma processProtocols_spec (bin : Binary) (entries : List UInt64) (s : Parser) :
    ∃ s', forEntries (processProtocol bin) entries s = (some (), s') ∧
      Lists bin s (entries.map (decodePtr bin)) s' := by
  induction entries generalizing s with
  | nil => exact ⟨s, rfl, .of_eq rfl rfl, rfl, by simp, by simp⟩
  | cons entry entries ih =>
      obtain ⟨s₁, hprocess, hlist⟩ := processProtocol_spec bin s entry
      obtain ⟨s₂, hloop, hrest⟩ := ih s₁
      refine ⟨s₂, (Attempt.bind_of_some hprocess).trans hloop, hlist.leads.trans hrest.leads,
        hrest.classes.trans hlist.classes, ?_, ?_⟩
      · rw [hrest.addresses, hlist.addresses, List.append_assoc, ← List.filter_append]
        rfl
      · intro a
        rw [hrest.cache, hlist.cache, List.mem_singleton, List.map_cons, List.mem_cons, or_imp,
          and_assoc]

/-! ### `parse` -/

/-- The addresses in `__objc_protolist` at which there is a protocol. -/
def listed (bin : Binary) : List UInt64 :=
  ((protolist bin).map (decodePtr bin)).filter fun a => (protocolAt bin a).isSome

/-- The addresses at which there is a protocol in the lists of protocols of the classes, in the
order in which the parser comes to them. -/
def adopted (bin : Binary) (depth : ℕ) : List UInt64 :=
  ((chainsOf bin depth (classlist bin)).flatMap (slotsAlong bin)).filter fun a =>
    (protocolAt bin a).isSome

/-- **What a run has made when it stops.**  It returns when all chains of first pointers are
short enough. -/
theorem parse_spec (bin : Binary) (depth : ℕ) :
    Leads bin initial (parse bin depth).2 ∧
      (parse bin depth).2.store.addresses =
        listed bin ++ (adopted bin depth).filter (· ∉ listed bin) ∧
      (parse bin depth).2.store.classValues =
        ((chainsOf bin depth (classlist bin)).filterMap (Class.valueAlong bin)).map
          (Class.map some) ∧
      ((parse bin depth).1.isSome ↔ ∀ entry ∈ classlist bin,
        (Link.chain (Class.superLink bin) depth (decodePtr bin entry)).isSome) := by
  obtain ⟨s₁, hprotocols, hlist⟩ := processProtocols_spec bin (protolist bin) initial
  obtain ⟨r, s₂, hclasses, hload, hr⟩ :=
    processClasses_spec depth (classlist bin) (hlist.leads.wellFormed Store.wellFormed_initial)
  have hparse : parse bin depth = (r, s₂) := (Attempt.bind_of_some hprotocols).trans hclasses
  -- what is asked for and missing is what is not listed
  have hmissing : ∀ a, Missing bin s₁.store a =
      ((protocolAt bin a).isSome && decide (a ∉ listed bin)) := by
    intro a
    have hcache : s₁.store.cache a = none ↔
        (a ∈ (protolist bin).map (decodePtr bin) → protocolAt bin a = none) := by
      rw [hlist.cache]
      exact and_iff_right rfl
    rw [Bool.eq_iff_iff]
    simp only [Missing, Bool.and_eq_true, Option.isNone_iff_eq_none, hcache, listed,
      List.mem_filter, decide_eq_true_eq, not_and, Bool.not_eq_true, Option.isSome_eq_false_iff]
    exact and_comm
  rw [hparse]
  refine ⟨hlist.leads.trans hload.leads, ?_, ?_, hr⟩
  · rw [hload.addresses, hlist.addresses, adopted, List.filter_filter]
    refine congrArg₂ _ rfl (List.filter_congr fun a _ => ?_)
    rw [hmissing, Bool.and_comm]
  · rw [hload.values]
    have hnone : s₁.store.classValues = [] := by
      rw [Store.classValues, hlist.classes]
      rfl
    rw [hnone, List.nil_append]

/-! ### Ownership and lookup -/

/-- The store at the point of a run up to which the actions `l` were performed: whatever is
pointed to is owned by the metadata, and looking up a name gives the last element that has
it. -/
structure Coherent (store : Store) (l : List Action) : Prop where
  cache_owned : ∀ a p, store.cache a = some p → p ∈ store.metadata.protocols.ids
  protocol_lookup_owned : ∀ n p, store.metadata.protocols.lookup n = some p →
    p ∈ store.metadata.protocols.ids
  /-- Also when the class was thrown away, or is not finished. -/
  held_owned : ∀ p, .holdProtocol p ∈ l → p ∈ store.metadata.protocols.ids
  adopted_owned : ∀ e ∈ store.metadata.classes.elements, ∀ p ∈ e.2.protocols,
    p ∈ store.metadata.protocols.ids
  classes_lookup_owned : ∀ n c, store.metadata.classes.lookup n = some c →
    c ∈ store.metadata.classes.ids
  /-- A pointer points to one element only. -/
  protocols_nodup : store.metadata.protocols.ids.Nodup
  classes_nodup : store.metadata.classes.ids.Nodup
  getProtocol_isSome : ∀ n, (store.metadata.getProtocol n).isSome ↔
    ∃ e ∈ store.metadata.protocols.elements, e.2.protocol.mangledName = n
  getProtocol_last : ∀ n p, store.metadata.getProtocol n = some p →
    store.metadata.protocols.IsLast (fun r => r.protocol.mangledName) n p
  getClass_isSome : ∀ n, (store.metadata.getClass n).isSome ↔
    ∃ e ∈ store.metadata.classes.elements, e.2.name = n
  getClass_last : ∀ n c, store.metadata.getClass n = some c →
    store.metadata.classes.IsLast Class.name n c

lemma coherent_after {l : List Action} (hl : (storeSystem bin).Run .initial l) :
    Coherent ((storeSystem bin).after .initial l) l := by
  have h := Store.wellFormed_initial.after hl
  exact
    { cache_owned := fun _ _ hp => h.mem_ids_of_cached hp
      protocol_lookup_owned := fun _ _ hp => h.protocols_indexed.mem_ids hp
      held_owned := fun _ hp => Store.mem_ids_of_held hl hp
      adopted_owned := h.adopted
      classes_lookup_owned := fun _ _ hc => h.classes_indexed.mem_ids hc
      protocols_nodup := h.protocols_nodup
      classes_nodup := h.classes_nodup
      getProtocol_isSome := h.protocols_indexed.isSome_iff
      getProtocol_last := fun _ _ hp => h.protocols_indexed.last hp
      getClass_isSome := h.classes_indexed.isSome_iff
      getClass_last := fun _ _ hc => h.classes_indexed.last hc }

/-- **Ownership and lookup of the metadata**, at every point of a run.  From one point to a later
one, elements are only appended. -/
theorem parse_coherent (bin : Binary) (depth : ℕ) {l l' : List Action} (hl : l <+: l')
    (hl' : l' <+: (parse bin depth).2.log) :
    Coherent ((storeSystem bin).after .initial l) l ∧
      ((storeSystem bin).after .initial l).Extends ((storeSystem bin).after .initial l') ∧
      (storeSystem bin).after .initial (parse bin depth).2.log = (parse bin depth).2.store := by
  obtain ⟨log, hlog, hrun, hstore⟩ := (parse_spec bin depth).1
  have hlog' : (parse bin depth).2.log = log := hlog
  rw [hlog'] at hl' ⊢
  refine ⟨coherent_after (hrun.of_prefix (hl.trans hl')), ?_, hstore.symm⟩
  obtain ⟨l'', rfl⟩ := hl
  rw [System.after_append]
  exact extends_after _ _

/-- An image with a class at `0x100` and its metaclass at `0x140`, which both adopt the protocol
at `0x400`.  The structures that they share are at `0x200` and `0x300`, and all other bytes are
zero. -/
def sampleBinary (protolist classlist : List UInt8) : Binary where
  imagebase := 0
  memoryBaseAddress := 0
  getSection segment name :=
    if segment = "__DATA" then
      if name = "__objc_protolist" then some protolist
      else if name = "__objc_classlist" then some classlist else none
    else none
  segmentFromVirtualAddress v :=
    if v < 0x1000 then
      some
        { virtualAddress := 0, virtualSize := 0x1000, fileSize := 0x1000
          content := ⟨fun i =>
            if i = 0x100 then 0x40 else if i = 0x101 then 1 else if i = 0x121 then 2
            else if i = 0x161 then 2 else if i = 0x229 then 3 else if i = 0x300 then 1
            else if i = 0x309 then 4 else 0, 0x1000⟩ }
    else none
  peekStringAt v := if v = 0 then some [] else none
  hostWord _ := 0

/-- The section with the address of the class at `0x100`. -/
def sampleClasslist : List UInt8 := [0, 1, 0, 0, 0, 0, 0, 0]

/-- The section with the address of the protocol at `0x400`. -/
def sampleProtolist : List UInt8 := [0, 4, 0, 0, 0, 0, 0, 0]

/-- The class at `0x100` is found under its name, which is empty. -/
theorem parse_coherent_sample :
    ((parse (sampleBinary [] sampleClasslist) 2).2.store.metadata.getClass []).isSome := by
  have hcoherent := parse_coherent (sampleBinary [] sampleClasslist) 2 List.prefix_rfl
    List.prefix_rfl
  rw [hcoherent.2.2] at hcoherent
  have hnames := congrArg (List.map Class.name)
    (parse_spec (sampleBinary [] sampleClasslist) 2).2.2.1
  rw [Store.classValues, List.map_map, List.map_map] at hnames
  have hone : ((chainsOf (sampleBinary [] sampleClasslist) 2
      (classlist (sampleBinary [] sampleClasslist))).filterMap
        (Class.valueAlong (sampleBinary [] sampleClasslist))).map Class.name = [[]] := rfl
  have hmem : [] ∈ (parse (sampleBinary [] sampleClasslist) 2).2.store.metadata.classes.elements.map
      fun e => e.2.name := by
    have hall := hnames.trans hone
    exact hall ▸ List.mem_singleton_self _
  exact (hcoherent.1.getClass_isSome []).2 (List.mem_map.1 hmem)

end Parser

end ICDump
