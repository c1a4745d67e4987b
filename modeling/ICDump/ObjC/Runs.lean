/-
What the functions of the parser do to its state.

`Leads` says that a function only changes the store by actions of `storeSystem`, which it
logs.  `Adopts` says more, of the functions that make classes: which protocols are
registered on the way.  Every function gets one lemma, and the lemma about
`Class::create` goes by induction on the depth, along the chain of first pointers.
-/
import ICDump.ObjC.Classes

namespace ICDump

open ParserM

variable {bin : Binary}

namespace Parser

/-! ### Actions that are performed -/

/-- From `s`, actions of the system are performed and logged, and lead to `s'`. -/
def Leads (bin : Binary) (s s' : Parser) : Prop :=
  ∃ l, s'.log = s.log ++ l ∧ (storeSystem bin).Run s.store l ∧
    s'.store = (storeSystem bin).after s.store l

lemma Leads.of_eq {s s' : Parser} (hstore : s'.store = s.store) (hlog : s'.log = s.log) :
    Leads bin s s' :=
  ⟨[], by rw [hlog, List.append_nil], trivial, hstore⟩

lemma Leads.trans {s t u : Parser} (h : Leads bin s t) (h' : Leads bin t u) : Leads bin s u := by
  obtain ⟨l, hlog, hrun, hstore⟩ := h
  obtain ⟨l', hlog', hrun', hstore'⟩ := h'
  rw [hstore] at hrun' hstore'
  exact ⟨l ++ l', by rw [hlog', hlog, List.append_assoc], System.run_append.2 ⟨hrun, hrun'⟩,
    by rw [hstore', System.after_append]⟩

lemma Leads.perform {s : Parser} {a : Action} (h : (storeSystem bin).enabled s.store a) :
    Leads bin s (perform a s).2 :=
  ⟨[a], rfl, System.run_singleton.2 h, rfl⟩

lemma Leads.wellFormed {s s' : Parser} (h : Leads bin s s') (hs : s.store.WellFormed bin) :
    s'.store.WellFormed bin := by
  obtain ⟨l, -, hrun, hstore⟩ := h
  rw [hstore]
  exact hs.after hrun

lemma Leads.extends {s s' : Parser} (h : Leads bin s s') : s.store.Extends s'.store := by
  obtain ⟨l, -, -, hstore⟩ := h
  rw [hstore]
  exact extends_after _ _

/-- The address would be registered if it was asked for. -/
def Missing (bin : Binary) (store : Store) (a : UInt64) : Bool :=
  (store.cache a).isNone && (protocolAt bin a).isSome

/-- From `s`, the protocols at the addresses `slots` are asked for, the pointers `ps` are
returned, and the state is `s'`. -/
structure Adopts (bin : Binary) (s : Parser) (slots : List UInt64) (ps : List Ptr) (s' : Parser) :
    Prop where
  leads : Leads bin s s'
  cache : s'.store.cache = s.store.cache
  classes : s'.store.metadata.classes = s.store.metadata.classes
  /-- What is missing is registered, as often as it is asked for. -/
  addresses : s'.store.addresses = s.store.addresses ++ slots.filter (Missing bin s.store)
  owned : ∀ p ∈ ps, p ∈ s'.store.metadata.protocols.ids
  /-- The pointers point to what the addresses decode to. -/
  values : ps.map s'.store.deref = (slots.filterMap (protocolAt bin)).map some

lemma Adopts.of_eq {s s' : Parser} (hstore : s'.store = s.store) (hlog : s'.log = s.log) :
    Adopts bin s [] [] s' where
  leads := .of_eq hstore hlog
  cache := by rw [hstore]
  classes := by rw [hstore]
  addresses := by rw [hstore, List.filter_nil, List.append_nil]
  owned _ hp := absurd hp List.not_mem_nil
  values := rfl

lemma Adopts.trans {s t u : Parser} {l l' : List UInt64} {ps ps' : List Ptr}
    (h : Adopts bin s l ps t) (h' : Adopts bin t l' ps' u) :
    Adopts bin s (l ++ l') (ps ++ ps') u where
  leads := h.leads.trans h'.leads
  cache := h'.cache.trans h.cache
  classes := h'.classes.trans h.classes
  addresses := by
    have hmissing : Missing bin t.store = Missing bin s.store := by
      funext a
      rw [Missing, Missing, h.cache]
    rw [h'.addresses, h.addresses, hmissing, List.filter_append, List.append_assoc]
  owned := by
    intro p hp
    rcases List.mem_append.1 hp with hp | hp
    · exact h'.leads.extends.mem_ids (h.owned p hp)
    · exact h'.owned p hp
  values := by
    -- what the first pointers point to does not change any more
    have hkept : ps.map u.store.deref = ps.map t.store.deref := by
      refine List.map_congr_left fun p hp => ?_
      have hmem : t.store.deref p ∈ (l.filterMap (protocolAt bin)).map some :=
        h.values ▸ List.mem_map_of_mem hp
      obtain ⟨proto, -, hproto⟩ := List.mem_map.1 hmem
      rw [← hproto]
      exact h'.leads.extends.deref hproto.symm
    rw [List.map_append, hkept, h.values, h'.values, List.filterMap_append, List.map_append]

/-- Adding a protocol to a class changes nothing in the store. -/
lemma Adopts.hold {s : Parser} {p : Ptr} (hp : p ∈ s.store.metadata.protocols.ids) :
    Adopts bin s [] [] (perform (.holdProtocol p) s).2 where
  leads := .perform hp
  cache := rfl
  classes := rfl
  addresses := (List.append_nil _).symm
  owned _ hp := absurd hp List.not_mem_nil
  values := rfl

/-! ### Scopes and records -/

lemma scopedStream_eq {α : Type} {m : ParserM α} {offset : UInt64} {s s' : Parser} {r : Option α}
    (h : m { s with pos := offset } = (r, s')) :
    scopedStream offset m s = (r, { s' with pos := s.pos }) := by
  simp only [scopedStream, h]

lemma onStream_protocol (bin : Binary) (s : Parser) :
    onStream (Protocol.create bin) s = (some (protocolAt bin s.pos), s) :=
  onStream_of_eq ((Protocol.create_restores bin).eq s.pos)

/-! ### `get_or_create_protocol` -/

variable {s : Parser} {a : UInt64}

lemma getOrCreateProtocol_of_cached {p : Ptr} (h : s.store.cache a = some p) :
    getOrCreateProtocol bin a s = (some (some p), s) := by
  rw [getOrCreateProtocol]
  refine (Attempt.bind_of_some (show getStore s = (some s.store, s) from rfl)).trans ?_
  simp only [h]
  rfl

lemma getOrCreateProtocol_of_unreadable (h : s.store.cache a = none)
    (ha : protocolAt bin a = none) : getOrCreateProtocol bin a s = (some none, s) := by
  have hread := onStream_protocol bin { s with pos := a }
  rw [getOrCreateProtocol]
  refine (Attempt.bind_of_some (show getStore s = (some s.store, s) from rfl)).trans ?_
  simp only [h]
  rw [ha] at hread
  show scopedStream a _ s = (some none, { ({ s with pos := a } : Parser) with pos := s.pos })
  exact scopedStream_eq (Attempt.bind_of_some hread)

/-- A protocol that is not cached is registered, under a new identity. -/
lemma getOrCreateProtocol_of_missing {proto : Protocol} (h : s.store.cache a = none)
    (ha : protocolAt bin a = some proto) :
    getOrCreateProtocol bin a s =
      (some (some s.store.next), (perform (.createProtocol a proto) s).2) := by
  have hread := onStream_protocol bin { s with pos := a }
  rw [getOrCreateProtocol]
  refine (Attempt.bind_of_some (show getStore s = (some s.store, s) from rfl)).trans ?_
  simp only [h]
  rw [ha] at hread
  show scopedStream a _ s = (some (some s.store.next),
    { (perform (.createProtocol a proto) { s with pos := a }).2 with pos := s.pos })
  exact scopedStream_eq (Attempt.bind_of_some hread)

/-- **One protocol is asked for.**  It is returned exactly when its address can be decoded. -/
theorem getOrCreateProtocol_spec (hs : s.store.WellFormed bin) (a : UInt64) :
    ∃ o s', getOrCreateProtocol bin a s = (some o, s') ∧ s'.pos = s.pos ∧
      Adopts bin s [a] o.toList s' := by
  cases hc : s.store.cache a with
  | some p =>
      have hmem := hs.mem_ids_of_cached hc
      obtain ⟨r, hr⟩ := Registry.exists_get?_of_mem_ids hmem
      have hderef : s.store.deref p = some r.protocol := by rw [Store.deref, hr, Option.map_some]
      have ha : protocolAt bin a = some r.protocol := (hs.deref_cached hc).symm.trans hderef
      exact ⟨some p, s, getOrCreateProtocol_of_cached hc, rfl,
        { (Adopts.of_eq rfl rfl : Adopts bin s [] [] s) with
          addresses := by simp [Missing, hc]
          owned := by simpa using hmem
          values := by simp [hderef, ha] }⟩
  | none =>
      cases ha : protocolAt bin a with
      | none =>
          exact ⟨none, s, getOrCreateProtocol_of_unreadable hc ha, rfl,
            { (Adopts.of_eq rfl rfl : Adopts bin s [] [] s) with
              addresses := by simp [Missing, ha]
              values := by simp [ha] }⟩
      | some proto =>
          have hderef := hs.deref_addProtocol a proto
          exact ⟨_, _, getOrCreateProtocol_of_missing hc ha, rfl,
            { leads := .perform ⟨hc, ha⟩
              cache := rfl
              classes := rfl
              addresses := by
                simp [perform, Store.apply, Store.addProtocol, Store.addresses, Missing, hc, ha]
              owned := by simp [perform, Store.apply, Store.addProtocol]
              values := by simp [perform, Store.apply, hderef, ha] }⟩

/-! ### The protocols of a class -/

/-- The loop on the slots asks for the protocols in them, one after the other. -/
lemma adoptProtocols_spec (n : ℕ) {s : Parser} (hs : s.store.WellFormed bin) :
    ∃ ps s', Class.adoptProtocols bin n s = (some ps, s') ∧
      Adopts bin s (Class.slotsFrom bin n s.pos) ps s' := by
  induction n generalizing s with
  | zero => exact ⟨[], s, rfl, .of_eq rfl rfl⟩
  | succ n ih =>
      rw [Class.adoptProtocols, Class.slotsFrom]
      cases hslot : bin.load UInt64 s.pos with
      | none =>
          have hread : onStream (BinaryStream.read UInt64 bin) s = (some none, s) :=
            onStream_of_eq (BinaryStream.read_of_none hslot)
          exact ⟨[], s, Attempt.bind_of_some hread, .of_eq rfl rfl⟩
      | some slot =>
          have hread : onStream (BinaryStream.read UInt64 bin) s =
              (some (some slot), { s with pos := s.pos + 8 }) := by
            rw [onStream, BinaryStream.read_of_some hslot]
            rfl
          obtain ⟨o, s₁, hget, hpos, hadopt⟩ :=
            getOrCreateProtocol_spec (s := { s with pos := s.pos + 8 }) hs (decodePtr bin slot)
          have hs₁ := hadopt.leads.wellFormed hs
          have hstart : Adopts bin s [] [] { s with pos := s.pos + 8 } := .of_eq rfl rfl
          cases o with
          | none =>
              -- the slot leads to no protocol, and the loop goes on
              obtain ⟨ps, s₂, hloop, hrest⟩ := ih hs₁
              rw [hpos] at hrest
              refine ⟨ps, s₂, ?_, hstart.trans (hadopt.trans hrest)⟩
              exact (Attempt.bind_of_some hread).trans ((Attempt.bind_of_some hget).trans hloop)
          | some p =>
              -- the class holds the protocol, which changes the log only
              have hp : p ∈ s₁.store.metadata.protocols.ids := hadopt.owned p (by simp)
              have hhold : Adopts bin s₁ [] [] (perform (.holdProtocol p) s₁).2 := .hold hp
              obtain ⟨ps, s₂, hloop, hrest⟩ := ih (hhold.leads.wellFormed hs₁)
              have hpos' : (perform (.holdProtocol p) s₁).2.pos = s.pos + 8 := hpos
              rw [hpos'] at hrest
              refine ⟨p :: ps, s₂, ?_, hstart.trans (hadopt.trans (hhold.trans hrest))⟩
              refine (Attempt.bind_of_some hread).trans ((Attempt.bind_of_some hget).trans ?_)
              exact (Attempt.bind_of_some (show perform (.holdProtocol p) s₁ =
                (some (), (perform (.holdProtocol p) s₁).2) from rfl)).trans
                (Attempt.bind_of_some hloop)

lemma readBaseProtocols_spec (ptr : UInt64) (hs : s.store.WellFormed bin) :
    ∃ ps s', Class.readBaseProtocols bin ptr s = (some ps, s') ∧ s'.pos = s.pos ∧
      Adopts bin s (Class.slotsOf bin ptr) ps s' := by
  rw [Class.readBaseProtocols, Class.slotsOf]
  split
  · exact ⟨[], s, rfl, rfl, .of_eq rfl rfl⟩
  · cases hlist : bin.load ProtocolListT (decodePtr bin ptr) with
    | none =>
        have hread : onStream (BinaryStream.read ProtocolListT bin)
            { s with pos := decodePtr bin ptr } =
            (some none, { s with pos := decodePtr bin ptr }) :=
          onStream_of_eq (BinaryStream.read_of_none hlist)
        exact ⟨[], _, scopedStream_eq (Attempt.bind_of_some hread), rfl, .of_eq rfl rfl⟩
    | some list =>
        have hread : onStream (BinaryStream.read ProtocolListT bin)
            { s with pos := decodePtr bin ptr } =
            (some (some list), { s with pos := decodePtr bin ptr + 8 }) := by
          rw [onStream, BinaryStream.read_of_some hlist]
          rfl
        obtain ⟨ps, s', hloop, hadopt⟩ := adoptProtocols_spec list.count.toNat
          (s := { s with pos := decodePtr bin ptr + 8 }) hs
        have hstart : Adopts bin s [] [] { s with pos := decodePtr bin ptr + 8 } := .of_eq rfl rfl
        have hend : Adopts bin s' [] [] { s' with pos := s.pos } := .of_eq rfl rfl
        refine ⟨ps, _, scopedStream_eq ((Attempt.bind_of_some hread).trans hloop), rfl, ?_⟩
        simpa using hstart.trans (hadopt.trans hend)

/-! ### Classes -/

open ICDump.Class (superLink slots valueAlong header build)

lemma superMethods_map {P Q : Type} (f : P → Q) (super : Option (Class P)) :
    Class.superMethods (super.map (Class.map f)) = Class.superMethods super := by
  cases super <;> rfl

/-- Only the methods of the class behind the first pointer are used. -/
lemma build_congr {P : Type} {super super' : Option (Class P)} (h : Class.Header)
    (hsuper : Class.superMethods super = Class.superMethods super') (ps : List P) :
    build bin h super ps = build bin h super' ps := by
  rw [build, build, hsuper]

/-- The protocols that making a class asks for, when its chain of first pointers is `l`: those
of the last class come first. -/
def slotsAlong (bin : Binary) (l : List UInt64) : List UInt64 := l.reverse.flatMap (slots bin)

lemma slotsAlong_cons (a : UInt64) (l : List UInt64) :
    slotsAlong bin (a :: l) = slotsAlong bin l ++ slots bin a := by
  simp [slotsAlong]

/-- When its chain of first pointers is too long, making a class changes nothing. -/
lemma create_giveUp {depth : ℕ} {s : Parser}
    (h : Link.chain (superLink bin) depth s.pos = none) :
    Class.create bin depth s = (none, s) := by
  induction depth generalizing s with
  | zero => rfl
  | succ depth ih =>
      cases hlink : superLink bin s.pos with
      | none => exact absurd h (by rw [Link.chain_succ_of_none hlink]; simp)
      | some b =>
          rw [Link.chain_succ_of_some hlink, Option.map_eq_none_iff] at h
          cases hh : header bin s.pos with
          | none => exact absurd (hlink.symm.trans (Class.superLink_of_header_none hh)) (by simp)
          | some hd =>
              have hsuper : Class.readSuper bin s.pos hd.clsObj.superClass
                  (Class.create bin depth) s = (none, s) := by
                rw [Class.readSuper_eq hh, hlink]
                show scopedStream b _ s =
                  (none, { ({ s with pos := b } : Parser) with pos := s.pos })
                exact scopedStream_eq (ih h)
              rw [Class.create_of_header hh]
              exact Attempt.bind_of_none hsuper

/-- Making the class at the position, when `l` is its chain of first pointers: the protocols in
the slots of the classes of the chain are asked for, and the class is, by value, the one that is
decoded from the image. -/
def Creates (bin : Binary) (depth : ℕ) (s : Parser) (l : List UInt64) : Prop :=
  ∃ o ps s', Class.create bin depth s = (some o, s') ∧ s'.pos = s.pos ∧
    Adopts bin s (slotsAlong bin l) ps s' ∧
    o.map (Class.map s'.store.deref) = (valueAlong bin l).map (Class.map some) ∧
    ∀ cls ∈ o, ∀ p ∈ cls.protocols, p ∈ s'.store.metadata.protocols.ids

/-- The class behind the first pointer, if this is followed, is made as the class itself is. -/
lemma readSuper_spec {depth : ℕ} {s : Parser} {l : List UInt64} {hd : Class.Header}
    (hh : header bin s.pos = some hd)
    (h : Link.chain (superLink bin) (depth + 1) s.pos = some l)
    (hcreates : ∀ b l', Link.chain (superLink bin) depth b = some l' →
      Creates bin depth { s with pos := b } l') :
    ∃ super ps s₁ l', s.pos :: l' = l ∧
      Class.readSuper bin s.pos hd.clsObj.superClass (Class.create bin depth) s =
        (some super, s₁) ∧
      s₁.pos = s.pos ∧ Adopts bin s (slotsAlong bin l') ps s₁ ∧
      Class.superMethods super = Class.superMethods (valueAlong bin l') := by
  rw [Class.readSuper_eq hh]
  cases hlink : superLink bin s.pos with
  | none =>
      rw [Link.chain_succ_of_none hlink, Option.some.injEq] at h
      exact ⟨none, [], s, [], h, rfl, rfl, .of_eq rfl rfl, rfl⟩
  | some b =>
      rw [Link.chain_succ_of_some hlink, Option.map_eq_some_iff] at h
      obtain ⟨l', hl', hl⟩ := h
      obtain ⟨super, ps, s₁, hcreate, -, hadopt, hvalue, -⟩ := hcreates b l' hl'
      have hstart : Adopts bin s [] [] { s with pos := b } := .of_eq rfl rfl
      have hend : Adopts bin s₁ [] [] { s₁ with pos := s.pos } := .of_eq rfl rfl
      refine ⟨super, ps, { s₁ with pos := s.pos }, l', hl, scopedStream_eq hcreate, rfl, ?_, ?_⟩
      · simpa using hstart.trans (hadopt.trans hend)
      · rw [← superMethods_map s₁.store.deref, hvalue, superMethods_map]

/-- **One class is made.** -/
theorem create_spec {depth : ℕ} {s : Parser} {l : List UInt64} (hs : s.store.WellFormed bin)
    (h : Link.chain (superLink bin) depth s.pos = some l) : Creates bin depth s l := by
  induction depth generalizing s l with
  | zero => exact absurd h (by simp [Link.chain])
  | succ depth ih =>
      cases hh : header bin s.pos with
      | none =>
          rw [Link.chain_succ_of_none (Class.superLink_of_header_none hh), Option.some.injEq] at h
          subst h
          have hslots : slotsAlong bin [s.pos] = [] := by simp [slotsAlong, slots, hh]
          refine ⟨none, [], s, Class.create_of_header_none hh, rfl, ?_, ?_, by simp⟩
          · rw [hslots]
            exact .of_eq rfl rfl
          · simp [valueAlong, hh]
      | some hd =>
          -- the class behind the first pointer, then the protocols of the class itself
          obtain ⟨super, ps₁, s₁, l', rfl, hsuper, hpos₁, hadopt₁, hvalue₁⟩ :=
            readSuper_spec hh h fun b l' hl' => ih (s := { s with pos := b }) hs hl'
          obtain ⟨ps₂, s₂, hslots, hpos₂, hadopt₂⟩ :=
            readBaseProtocols_spec hd.rawRo.baseProtocols (hadopt₁.leads.wellFormed hs)
          have hown : Class.slotsOf bin hd.rawRo.baseProtocols = slots bin s.pos :=
            (Class.slots_of_header hh).symm
          rw [hown] at hadopt₂
          refine ⟨some (build bin hd super ps₂), ps₁ ++ ps₂, s₂, ?_, hpos₂.trans hpos₁, ?_, ?_, ?_⟩
          · rw [Class.create_of_header hh]
            exact (Attempt.bind_of_some hsuper).trans (Attempt.bind_of_some hslots)
          · rw [slotsAlong_cons]
            exact hadopt₁.trans hadopt₂
          · rw [valueAlong, hh, Option.map_some, Option.map_some, Option.map_some, Class.map_build,
              Class.map_build, hadopt₂.values]
            refine congrArg some (build_congr hd ?_ _)
            rw [superMethods_map, superMethods_map, hvalue₁]
          · rintro cls hcls
            obtain rfl := Option.some.inj hcls
            exact hadopt₂.owned

/-! ### The lists of the image -/

/-- From `s`, the protocols at the addresses `slots` are asked for, the classes `values` are
registered, and the state is `s'`. -/
structure Loads (bin : Binary) (s : Parser) (slots : List UInt64) (values : List (Class Protocol))
    (s' : Parser) : Prop where
  leads : Leads bin s s'
  cache : s'.store.cache = s.store.cache
  addresses : s'.store.addresses = s.store.addresses ++ slots.filter (Missing bin s.store)
  values : s'.store.classValues = s.store.classValues ++ values.map (Class.map some)

lemma Loads.refl (s : Parser) : Loads bin s [] [] s where
  leads := .of_eq rfl rfl
  cache := rfl
  addresses := (List.append_nil _).symm
  values := (List.append_nil _).symm

lemma Loads.trans {s t u : Parser} {l l' : List UInt64} {vs vs' : List (Class Protocol)}
    (h : Loads bin s l vs t) (h' : Loads bin t l' vs' u) :
    Loads bin s (l ++ l') (vs ++ vs') u where
  leads := h.leads.trans h'.leads
  cache := h'.cache.trans h.cache
  addresses := by
    have hmissing : Missing bin t.store = Missing bin s.store := by
      funext a
      rw [Missing, Missing, h.cache]
    rw [h'.addresses, h.addresses, hmissing, List.filter_append, List.append_assoc]
  values := by rw [h'.values, h.values, List.map_append, List.append_assoc]

/-- The chains of first pointers of the classes in a list, up to the first that is too long. -/
def chainsOf (bin : Binary) (depth : ℕ) : List UInt64 → List (List UInt64)
  | [] => []
  | entry :: entries =>
      match Link.chain (superLink bin) depth (decodePtr bin entry) with
      | none => []
      | some l => l :: chainsOf bin depth entries

lemma processClass_giveUp {depth : ℕ} {entry : UInt64}
    (h : Link.chain (superLink bin) depth (decodePtr bin entry) = none) :
    processClass bin depth entry s = (none, s) := by
  show scopedStream (decodePtr bin entry) _ s =
    (none, { ({ s with pos := decodePtr bin entry } : Parser) with pos := s.pos })
  exact scopedStream_eq (Attempt.bind_of_none (create_giveUp h))

/-- One entry of `__objc_classlist` adds one class, or none. -/
lemma processClass_spec {depth : ℕ} {entry : UInt64} {l : List UInt64}
    (hs : s.store.WellFormed bin)
    (h : Link.chain (superLink bin) depth (decodePtr bin entry) = some l) :
    ∃ s', processClass bin depth entry s = (some (), s') ∧
      Loads bin s (slotsAlong bin l) (valueAlong bin l).toList s' := by
  obtain ⟨o, ps, s₁, hcreate, -, hadopt, hvalue, howned⟩ :=
    create_spec (s := { s with pos := decodePtr bin entry }) hs h
  have hleads : Leads bin s s₁ := Leads.trans (.of_eq rfl rfl) hadopt.leads
  -- protocols were registered, but those that the older classes hold are as they were
  have hkept : s₁.store.classValues = s.store.classValues := by
    rw [Store.classValues, hadopt.classes]
    refine List.map_congr_left fun e he => ?_
    rw [Class.map, Class.map, List.map_congr_left fun p hp =>
      hleads.extends.deref_eq (hs.adopted e he p hp)]
  cases o with
  | none =>
      have hnone : valueAlong bin l = none := by simpa using hvalue.symm
      refine ⟨_, scopedStream_eq (Attempt.bind_of_some hcreate), hleads.trans (.of_eq rfl rfl),
        hadopt.cache, hadopt.addresses, ?_⟩
      rw [hnone, Option.toList_none, List.map_nil, List.append_nil]
      exact hkept
  | some cls =>
      obtain ⟨value, hsome⟩ : ∃ value, valueAlong bin l = some value := by
        cases hv : valueAlong bin l with
        | none => simp [hv] at hvalue
        | some value => exact ⟨value, rfl⟩
      have hcls : cls.map s₁.store.deref = value.map some := by simpa [hsome] using hvalue
      have happend : Leads bin s₁ (perform (.appendClass cls) s₁).2 :=
        .perform (howned cls rfl)
      refine ⟨_, scopedStream_eq (Attempt.bind_of_some hcreate),
        (hleads.trans happend).trans (.of_eq rfl rfl), hadopt.cache, hadopt.addresses, ?_⟩
      rw [hsome, Option.toList_some, List.map_singleton, ← hcls, ← hkept]
      exact s₁.store.classValues_appendClass cls

/-- **All entries are processed** up to the first whose chain of first pointers is too long. -/
theorem processClasses_spec (depth : ℕ) (entries : List UInt64) {s : Parser}
    (hs : s.store.WellFormed bin) :
    ∃ r s', forEntries (processClass bin depth) entries s = (r, s') ∧
      Loads bin s ((chainsOf bin depth entries).flatMap (slotsAlong bin))
        ((chainsOf bin depth entries).filterMap (valueAlong bin)) s' ∧
      (r.isSome ↔ ∀ entry ∈ entries,
        (Link.chain (superLink bin) depth (decodePtr bin entry)).isSome) := by
  induction entries generalizing s with
  | nil => exact ⟨some (), s, rfl, .refl s, by simp⟩
  | cons entry entries ih =>
      rw [forEntries, chainsOf]
      cases hchain : Link.chain (superLink bin) depth (decodePtr bin entry) with
      | none =>
          -- the recursion runs out of levels, and nothing after it is done
          exact ⟨none, s, Attempt.bind_of_none (processClass_giveUp hchain), .refl s,
            by simp [hchain]⟩
      | some l =>
          obtain ⟨s₁, hprocess, hload⟩ := processClass_spec hs hchain
          obtain ⟨r, s₂, hloop, hrest, hr⟩ := ih (hload.leads.wellFormed hs)
          refine ⟨r, s₂, (Attempt.bind_of_some hprocess).trans hloop, ?_, ?_⟩
          · have hvalues : (l :: chainsOf bin depth entries).filterMap (valueAlong bin) =
                (valueAlong bin l).toList ++ (chainsOf bin depth entries).filterMap
                  (valueAlong bin) := by
              cases hv : valueAlong bin l <;> simp [hv]
            rw [hvalues, List.flatMap_cons]
            exact hload.trans hrest
          · simp [hr, hchain]

end Parser

end ICDump
