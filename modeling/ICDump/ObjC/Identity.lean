/-
One object per protocol.

The cache is filled by `process_protocols` and looked at by `get_or_create_protocol`, but
the first does not look at it and the second does not fill it.  So a protocol that is
listed twice, or is not listed and adopted twice, is registered twice.  The conditions
under which this does not happen are on the lists of the image, for a run, and on the cache,
for two calls of `get_or_create_protocol`.
-/
import ICDump.ObjC.Refinement

namespace ICDump

open ParserM

variable {bin : Binary}

namespace Parser

/-- At every point of a run, no two protocols were decoded from the same address. -/
def Distinct (bin : Binary) (depth : ℕ) : Prop :=
  ∀ l, l <+: (parse bin depth).2.log → ((storeSystem bin).after .initial l).addresses.Nodup

/-- A call of `get_or_create_protocol` in the state `s` returns `p` and adds nothing. -/
def Returns (bin : Binary) (a : UInt64) (p : Ptr) (s : Parser) : Prop :=
  ∃ s', getOrCreateProtocol bin a s = (some (some p), s') ∧
    s'.store.metadata.protocols.elements = s.store.metadata.protocols.elements

lemma extends_addresses {s s' : Store} (h : s.Extends s') : s.addresses <+: s'.addresses :=
  h.protocols.map _

/-- Protocols are never removed, so it is enough to look at the end of the run. -/
lemma distinct_iff (bin : Binary) (depth : ℕ) :
    Distinct bin depth ↔ (parse bin depth).2.store.addresses.Nodup := by
  obtain ⟨log, hlog, -, hstore⟩ := (parse_spec bin depth).1
  have hlog' : (parse bin depth).2.log = log := hlog
  constructor
  · intro h
    rw [hstore]
    exact h log (by rw [hlog'])
  · intro h l hl
    rw [hlog'] at hl
    obtain ⟨l', rfl⟩ := hl
    have hprefix : ((storeSystem bin).after .initial l).addresses <+:
        (parse bin depth).2.store.addresses := by
      rw [hstore]
      show _ <+: ((storeSystem bin).after .initial (l ++ l')).addresses
      rw [System.after_append]
      exact extends_addresses (extends_after _ _)
    exact hprefix.sublist.nodup h

/-- The condition on the lists of the image. -/
lemma distinct_iff_nodup (bin : Binary) (depth : ℕ) :
    Distinct bin depth ↔
      (listed bin).Nodup ∧ ((adopted bin depth).filter (· ∉ listed bin)).Nodup := by
  rw [distinct_iff, (parse_spec bin depth).2.1, List.nodup_append]
  refine ⟨fun h => ⟨h.1, h.2.1⟩, fun h => ⟨h.1, h.2, ?_⟩⟩
  -- what is created on demand was not listed
  rintro a ha b hb rfl
  exact absurd ha (of_decide_eq_true (List.mem_filter.1 hb).2)

/-- No action but listing the address changes what is cached for it. -/
lemma cache_after (bin : Binary) {s : Store} {a : UInt64} {l : List Action}
    (h : ∀ proto, .listProtocol a proto ∉ l) :
    ((storeSystem bin).after s l).cache a = s.cache a := by
  induction l generalizing s with
  | nil => rfl
  | cons act l ih =>
      rw [System.after_cons, ih fun proto hmem => h proto (List.mem_cons_of_mem act hmem)]
      cases act with
      | listProtocol location proto =>
          have hne : a ≠ location := by
            rintro rfl
            exact h proto List.mem_cons_self
          exact Function.update_of_ne hne _ _
      | createProtocol offset proto => rfl
      | holdProtocol p => rfl
      | appendClass cls => rfl

lemma next_le_apply (s : Store) (act : Action) : s.next ≤ (s.apply act).next := by
  cases act with
  | holdProtocol p => exact le_rfl
  | listProtocol location proto | createProtocol offset proto | appendClass cls =>
      exact Nat.le_succ _

/-- What is cached after some actions was cached before them, or is new. -/
lemma cache_after_cases {s : Store} {a : UInt64} {l : List Action} {p : Ptr}
    (h : ((storeSystem bin).after s l).cache a = some p) :
    s.cache a = some p ∧ (∀ proto, .listProtocol a proto ∉ l) ∨ s.next ≤ p := by
  induction l generalizing s with
  | nil => exact Or.inl ⟨h, fun _ => List.not_mem_nil⟩
  | cons act l ih =>
      have hone : ((storeSystem bin).after s [act]) = s.apply act := rfl
      rcases ih h with ⟨hcache, hlist⟩ | hle
      · by_cases hact : ∃ proto, act = .listProtocol a proto
        · -- listing the address overwrites its entry with a new pointer
          obtain ⟨proto, rfl⟩ := hact
          have hnew : s.next = p := by
            simpa [storeSystem, Store.apply] using hcache
          exact Or.inr hnew.le
        · have hne : ∀ proto, .listProtocol a proto ∉ [act] := fun proto hmem =>
            hact ⟨proto, (List.mem_singleton.1 hmem).symm⟩
          refine Or.inl ⟨?_, fun proto hmem => ?_⟩
          · rw [← cache_after bin hne, hone]
            exact hcache
          · rcases List.mem_cons.1 hmem with rfl | hmem
            · exact hne proto (List.mem_singleton_self _)
            · exact hlist proto hmem
      · exact Or.inr ((next_le_apply s act).trans hle)

/-- A call that returns a pointer without adding anything has found it in the cache. -/
lemma returns_iff {s : Parser} {a : UInt64} {p : Ptr} :
    Returns bin a p s ↔ s.store.cache a = some p := by
  constructor
  · rintro ⟨s', hcall, hsame⟩
    cases hc : s.store.cache a with
    | some q =>
        rw [getOrCreateProtocol_of_cached hc] at hcall
        simp only [Prod.mk.injEq, Option.some.injEq] at hcall
        rw [hcall.1]
    | none =>
        cases ha : protocolAt bin a with
        | none =>
            rw [getOrCreateProtocol_of_unreadable hc ha] at hcall
            simp at hcall
        | some proto =>
            rw [getOrCreateProtocol_of_missing hc ha, Prod.mk.injEq] at hcall
            rw [← hcall.2] at hsame
            exact absurd hsame (by simp [perform, Store.apply, Store.addProtocol])
  · intro h
    exact ⟨s, getOrCreateProtocol_of_cached h, rfl⟩

/-- **One object per protocol**, and when there is.

In a run, the addresses of the registered protocols are distinct at every point exactly when
no address with a protocol occurs twice in the list of protocols, nor, unless it is listed,
twice in the lists of the classes that are made.

Of two successful calls of `get_or_create_protocol` in any reachable state, with any actions
in between, the second returns the same pointer and adds nothing exactly when the address was
cached before the first one and is not listed again. -/
theorem one_protocol_per_address (bin : Binary) :
    (∀ depth, Distinct bin depth ↔
      (listed bin).Nodup ∧ ((adopted bin depth).filter (· ∉ listed bin)).Nodup) ∧
    ∀ (s : Parser) (a : UInt64) (p : Ptr) (s₁ s₂ : Parser) (l : List Action),
      Leads bin initial s → getOrCreateProtocol bin a s = (some (some p), s₁) →
      (storeSystem bin).Run s₁.store l → s₂.store = (storeSystem bin).after s₁.store l →
      (Returns bin a p s₂ ↔
        s.store.cache a ≠ none ∧ ∀ proto, .listProtocol a proto ∉ l) := by
  refine ⟨distinct_iff_nodup bin, fun s a p s₁ s₂ l hs hcall hrun hs₂ => ?_⟩
  have hwf := hs.wellFormed Store.wellFormed_initial
  obtain ⟨o, s', hcall', -, hadopt⟩ := getOrCreateProtocol_spec hwf a
  obtain ⟨rfl, rfl⟩ : o = some p ∧ s' = s₁ := by
    rw [hcall, Prod.mk.injEq, Option.some.injEq] at hcall'
    exact ⟨hcall'.1.symm, hcall'.2.symm⟩
  rw [returns_iff, hs₂]
  constructor
  · intro hp
    rcases cache_after_cases hp with ⟨hcache, hlist⟩ | hle
    · rw [hadopt.cache] at hcache
      exact ⟨by simp [hcache], hlist⟩
    · -- the first pointer was given away before
      have hlt := (hadopt.leads.wellFormed hwf).protocols_fresh p (hadopt.owned p (by simp))
      exact absurd hlt (not_lt.2 hle)
  · rintro ⟨hne, hlist⟩
    obtain ⟨q, hq⟩ := Option.ne_none_iff_exists'.1 hne
    rw [getOrCreateProtocol_of_cached hq, Prod.mk.injEq, Option.some.injEq,
      Option.some.injEq] at hcall
    rw [cache_after bin hlist, hadopt.cache, hq, hcall.1]

/-- The sample image with the protocol in its list: there is one object at every point, although
the class and its metaclass both adopt it, and once the list is read every call returns it. -/
theorem one_protocol_per_address_listed :
    Distinct (sampleBinary sampleProtolist sampleClasslist) 2 ∧
      ∃ s, Leads (sampleBinary sampleProtolist sampleClasslist) initial s ∧
        Returns (sampleBinary sampleProtolist sampleClasslist) 0x400 0 s := by
  have hlisted : listed (sampleBinary sampleProtolist sampleClasslist) = [0x400] := rfl
  have hadopted : adopted (sampleBinary sampleProtolist sampleClasslist) 2 = [0x400, 0x400] := rfl
  have hproto : protocolAt (sampleBinary sampleProtolist sampleClasslist) 0x400 =
      some ⟨[], [], [], []⟩ := rfl
  have hs : Leads (sampleBinary sampleProtolist sampleClasslist) initial
      (perform (.listProtocol 0x400 ⟨[], [], [], []⟩) initial).2 := .perform hproto
  have hcached : (perform (.listProtocol 0x400 ⟨[], [], [], []⟩) initial).2.store.cache 0x400 =
      some 0 := rfl
  have h := one_protocol_per_address (sampleBinary sampleProtolist sampleClasslist)
  constructor
  · refine (h.1 2).2 ?_
    rw [hlisted, hadopted]
    decide
  · refine ⟨_, hs, (h.2 _ 0x400 0 _ _ [] hs (getOrCreateProtocol_of_cached hcached) trivial
      rfl).2 ⟨?_, fun _ => List.not_mem_nil⟩⟩
    rw [hcached]
    exact Option.some_ne_none 0

/-- Without it, there are two objects for the protocol, and two calls one after the other return
two pointers. -/
theorem two_protocols_at_one_address :
    ¬ (∀ (bin : Binary) (depth : ℕ), Distinct bin depth) ∧
      ¬ ∀ (bin : Binary) (s : Parser) (a : UInt64) (p : Ptr) (s₁ s₂ : Parser) (l : List Action),
        Leads bin initial s → getOrCreateProtocol bin a s = (some (some p), s₁) →
        (storeSystem bin).Run s₁.store l → s₂.store = (storeSystem bin).after s₁.store l →
        Returns bin a p s₂ := by
  refine ⟨fun h => ?_, fun h => ?_⟩
  · have hdistinct := (distinct_iff_nodup _ 2).1 (h (sampleBinary [] sampleClasslist) 2)
    have hadopted : (adopted (sampleBinary [] sampleClasslist) 2).filter
        (· ∉ listed (sampleBinary [] sampleClasslist)) = [0x400, 0x400] := rfl
    rw [hadopted] at hdistinct
    exact absurd hdistinct.2 (by decide)
  · have hproto : protocolAt (sampleBinary [] sampleClasslist) 0x400 = some ⟨[], [], [], []⟩ := rfl
    have hcall := getOrCreateProtocol_of_missing (s := initial) rfl hproto
    have hreturns := returns_iff.1 (h _ initial 0x400 _ _ _ [] (.of_eq rfl rfl) hcall trivial rfl)
    exact absurd (show none = some 0 from hreturns) (by simp)

end Parser

end ICDump
