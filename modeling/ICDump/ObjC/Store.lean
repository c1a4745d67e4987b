/-
The invariant of the store.

The actions of a parser are a system: `storeSystem` says in which stores each of them may
happen.  Two things are proved about it.  Every action only appends to the vectors, so
pointers keep their meaning (`Extends`); and the store stays well formed (`WellFormed`):
the indexes agree with the vectors, identities are not used twice, and everything that the
cache or a class points to is owned by the metadata.
-/
import ICDump.ObjC.Parser

namespace ICDump

/-- The protocol that is decoded from an address, from the image alone. -/
def protocolAt (bin : Binary) (a : UInt64) : Option Protocol := (Protocol.create bin).value a

namespace Store

/-- The protocol that a pointer points to. -/
def deref (s : Store) (p : Ptr) : Option Protocol :=
  (s.metadata.protocols.get? p).map Registered.protocol

/-- The addresses that the registered protocols were decoded from. -/
def addresses (s : Store) : List UInt64 :=
  s.metadata.protocols.elements.map fun e => e.2.address

/-- The registered protocols, without their identities. -/
def protocolValues (s : Store) : List Protocol :=
  s.metadata.protocols.elements.map fun e => e.2.protocol

/-- The registered classes, with the protocols that they point to. -/
def classValues (s : Store) : List (Class (Option Protocol)) :=
  s.metadata.classes.elements.map fun e => e.2.map s.deref

lemma classValues_appendClass (s : Store) (cls : Class Ptr) :
    (s.apply (.appendClass cls)).classValues = s.classValues ++ [cls.map s.deref] := by
  show (s.metadata.classes.elements ++ [(s.next, cls)]).map (fun e => e.2.map s.deref) = _
  rw [List.map_append]
  rfl

/-! ### Growth -/

/-- The vectors of the first store are beginnings of those of the second. -/
structure Extends (s s' : Store) : Prop where
  protocols : s.metadata.protocols.elements <+: s'.metadata.protocols.elements
  classes : s.metadata.classes.elements <+: s'.metadata.classes.elements

lemma Extends.refl (s : Store) : s.Extends s := ⟨List.prefix_rfl, List.prefix_rfl⟩

lemma Extends.trans {s t u : Store} (h : s.Extends t) (h' : t.Extends u) : s.Extends u :=
  ⟨h.protocols.trans h'.protocols, h.classes.trans h'.classes⟩

/-- No action removes or moves an element. -/
lemma extends_apply (s : Store) (a : Action) : s.Extends (s.apply a) := by
  cases a with
  | listProtocol location proto => exact ⟨List.prefix_append _ _, List.prefix_rfl⟩
  | createProtocol offset proto => exact ⟨List.prefix_append _ _, List.prefix_rfl⟩
  | holdProtocol p => exact Extends.refl s
  | appendClass cls => exact ⟨List.prefix_rfl, List.prefix_append _ _⟩

lemma Extends.mem_ids {s s' : Store} (h : s.Extends s') {p : Ptr}
    (hp : p ∈ s.metadata.protocols.ids) : p ∈ s'.metadata.protocols.ids :=
  (h.protocols.map Prod.fst).subset hp

/-- What a pointer to a registered protocol points to does not change any more. -/
lemma Extends.deref_eq {s s' : Store} (h : s.Extends s') {p : Ptr}
    (hp : p ∈ s.metadata.protocols.ids) : s'.deref p = s.deref p := by
  obtain ⟨r, hr⟩ := Registry.exists_get?_of_mem_ids hp
  rw [Store.deref, Store.deref, hr, Registry.get?_of_prefix h.protocols hr]

lemma Extends.deref {s s' : Store} (h : s.Extends s') {p : Ptr} {proto : Protocol}
    (hp : s.deref p = some proto) : s'.deref p = some proto := by
  obtain ⟨r, hr, rfl⟩ := Option.map_eq_some_iff.1 hp
  rw [Store.deref, Registry.get?_of_prefix h.protocols hr, Option.map_some]

end Store

/-! ### The system -/

/-- The actions of a parser on the image `bin`: it registers what it decodes from the image,
creates a protocol only when there is none in the cache, and adds protocols to classes that
it has registered. -/
def storeSystem (bin : Binary) : System Store Action where
  apply := Store.apply
  enabled s
    | .listProtocol location proto => protocolAt bin location = some proto
    | .createProtocol offset proto => s.cache offset = none ∧ protocolAt bin offset = some proto
    | .holdProtocol p => p ∈ s.metadata.protocols.ids
    | .appendClass cls => ∀ p ∈ cls.protocols, p ∈ s.metadata.protocols.ids

variable {bin : Binary} {s : Store}

lemma extends_after (s : Store) (l : List Action) : s.Extends ((storeSystem bin).after s l) :=
  System.after_mono Store.Extends.refl (fun _ _ _ => Store.Extends.trans)
    Store.extends_apply s l

namespace Store

/-- The invariant of the store. -/
structure WellFormed (bin : Binary) (s : Store) : Prop where
  /-- `protocol_lookup_` agrees with `protocols_`. -/
  protocols_indexed : s.metadata.protocols.Indexed fun r => r.protocol.mangledName
  /-- `classes_lookup_` agrees with `classes_`. -/
  classes_indexed : s.metadata.classes.Indexed Class.name
  protocols_nodup : s.metadata.protocols.ids.Nodup
  classes_nodup : s.metadata.classes.ids.Nodup
  protocols_fresh : ∀ p ∈ s.metadata.protocols.ids, p < s.next
  classes_fresh : ∀ c ∈ s.metadata.classes.ids, c < s.next
  /-- A protocol is what its address decodes to. -/
  decoded : ∀ e ∈ s.metadata.protocols.elements, protocolAt bin e.2.address = some e.2.protocol
  /-- A cached pointer points to the protocol decoded from its address. -/
  cached : ∀ {a p}, s.cache a = some p → ∃ proto, (p, ⟨a, proto⟩) ∈ s.metadata.protocols.elements
  /-- The classes point to registered protocols. -/
  adopted : ∀ e ∈ s.metadata.classes.elements, ∀ p ∈ e.2.protocols,
    p ∈ s.metadata.protocols.ids

lemma wellFormed_initial : initial.WellFormed bin where
  protocols_indexed := Registry.indexed_empty
  classes_indexed := Registry.indexed_empty
  protocols_nodup := List.nodup_nil
  classes_nodup := List.nodup_nil
  protocols_fresh _ h := absurd h List.not_mem_nil
  classes_fresh _ h := absurd h List.not_mem_nil
  decoded _ h := absurd h List.not_mem_nil
  cached h := absurd h (by simp [initial])
  adopted _ h := absurd h List.not_mem_nil

namespace WellFormed

lemma next_notMem_protocols (h : s.WellFormed bin) : s.next ∉ s.metadata.protocols.ids :=
  fun hmem => absurd (h.protocols_fresh _ hmem) (lt_irrefl _)

lemma mem_ids_of_cached (h : s.WellFormed bin) {a : UInt64} {p : Ptr} (hp : s.cache a = some p) :
    p ∈ s.metadata.protocols.ids := by
  obtain ⟨proto, hmem⟩ := h.cached hp
  exact List.mem_map_of_mem hmem

/-- A cached pointer points to what its address decodes to. -/
lemma deref_cached (h : s.WellFormed bin) {a : UInt64} {p : Ptr} (hp : s.cache a = some p) :
    s.deref p = protocolAt bin a := by
  obtain ⟨proto, hmem⟩ := h.cached hp
  rw [deref, Registry.get?_of_mem h.protocols_nodup hmem, Option.map_some]
  exact (h.decoded _ hmem).symm

/-- A protocol that is registered is found under its identity. -/
lemma deref_addProtocol (h : s.WellFormed bin) (a : UInt64) (proto : Protocol) :
    (s.addProtocol a proto).deref s.next = some proto := by
  have hnodup : (s.addProtocol a proto).metadata.protocols.ids.Nodup := by
    rw [addProtocol, Registry.ids_add]
    exact h.protocols_nodup.append (List.nodup_singleton _)
      (List.disjoint_singleton.2 h.next_notMem_protocols)
  have hmem : (s.next, ⟨a, proto⟩) ∈ (s.addProtocol a proto).metadata.protocols.elements := by
    simp [addProtocol]
  rw [deref, Registry.get?_of_mem hnodup hmem, Option.map_some]

/-- The values of the protocols are those of their addresses. -/
lemma map_protocolValues (h : s.WellFormed bin) :
    s.protocolValues.map some = s.addresses.map (protocolAt bin) := by
  rw [protocolValues, addresses, List.map_map, List.map_map]
  exact List.map_congr_left fun e he => (h.decoded e he).symm

/-- Registering what the image decodes to keeps the store well formed. -/
lemma addProtocol (h : s.WellFormed bin) {a : UInt64} {proto : Protocol}
    (ha : protocolAt bin a = some proto) : (s.addProtocol a proto).WellFormed bin where
  protocols_indexed := h.protocols_indexed.add s.next ⟨a, proto⟩
  classes_indexed := h.classes_indexed
  protocols_nodup := by
    rw [Store.addProtocol, Registry.ids_add]
    exact h.protocols_nodup.append (List.nodup_singleton _)
      (List.disjoint_singleton.2 h.next_notMem_protocols)
  classes_nodup := h.classes_nodup
  protocols_fresh := by
    intro p hp
    rw [Store.addProtocol, Registry.ids_add, List.mem_append, List.mem_singleton] at hp
    rcases hp with hp | rfl
    · exact (h.protocols_fresh p hp).trans (Nat.lt_succ_self _)
    · exact Nat.lt_succ_self _
  classes_fresh c hc := (h.classes_fresh c hc).trans (Nat.lt_succ_self _)
  decoded := by
    intro e he
    rw [Store.addProtocol, Registry.elements_add, List.mem_append, List.mem_singleton] at he
    rcases he with he | rfl
    · exact h.decoded e he
    · exact ha
  cached hp := by
    obtain ⟨proto', hmem⟩ := h.cached hp
    exact ⟨proto', List.mem_append_left _ hmem⟩
  adopted e he p hp := by
    rw [Store.addProtocol, Registry.ids_add]
    exact List.mem_append_left _ (h.adopted e he p hp)

/-- Every action that may happen keeps the store well formed. -/
lemma apply (h : s.WellFormed bin) {a : Action} (ha : (storeSystem bin).enabled s a) :
    (s.apply a).WellFormed bin := by
  cases a with
  | listProtocol location proto =>
      have hadd := h.addProtocol (show protocolAt bin location = some proto from ha)
      refine { hadd with cached := ?_ }
      intro a p hp
      -- the cache entry of `location` is overwritten, the others are as they were
      by_cases hloc : a = location
      · subst hloc
        obtain rfl : s.next = p := by simpa [Store.apply] using hp
        exact ⟨proto, by simp [Store.apply, Store.addProtocol]⟩
      · exact hadd.cached (by simpa [Store.apply, Store.addProtocol, hloc] using hp)
  | createProtocol offset proto => exact h.addProtocol ha.2
  | holdProtocol p => exact h
  | appendClass cls =>
      exact
        { h with
          classes_indexed := h.classes_indexed.add s.next cls
          classes_nodup := by
            rw [Store.apply, Registry.ids_add]
            exact h.classes_nodup.append (List.nodup_singleton _)
              (List.disjoint_singleton.2 fun hmem => absurd (h.classes_fresh _ hmem)
                (lt_irrefl _))
          protocols_fresh := fun p hp => (h.protocols_fresh p hp).trans (Nat.lt_succ_self _)
          classes_fresh := by
            intro c hc
            rw [Store.apply, Registry.ids_add, List.mem_append, List.mem_singleton] at hc
            rcases hc with hc | rfl
            · exact (h.classes_fresh c hc).trans (Nat.lt_succ_self _)
            · exact Nat.lt_succ_self _
          adopted := by
            intro e he
            rw [Store.apply, Registry.elements_add, List.mem_append, List.mem_singleton] at he
            rcases he with he | rfl
            · exact h.adopted e he
            · exact ha }

end WellFormed

/-- **The store is well formed at every point of a run.** -/
theorem WellFormed.after (h : s.WellFormed bin) {l : List Action}
    (hl : (storeSystem bin).Run s l) : ((storeSystem bin).after s l).WellFormed bin :=
  hl.invariant (fun _ _ hs ha => hs.apply ha) h

/-- What a class was given to hold is owned by the metadata, at every later point. -/
lemma mem_ids_of_held {l : List Action} (hl : (storeSystem bin).Run s l) {p : Ptr}
    (hp : .holdProtocol p ∈ l) : p ∈ ((storeSystem bin).after s l).metadata.protocols.ids := by
  obtain ⟨l₁, l₂, rfl⟩ := List.mem_iff_append.1 hp
  rw [System.run_append] at hl
  rw [System.after_append]
  exact (extends_after _ _).mem_ids hl.2.1

end Store

end ICDump
