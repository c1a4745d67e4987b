/-
The parser and the cache-free parser.

`classAt` is the class that is made by a parser that has not seen anything yet.  The
parser that has gone through other protocols and classes, and has cached some of them, makes
the same class, by value.  So the classes of a whole run are the ones that are made one by
one.
-/
import ICDump.ObjC.Parse

namespace ICDump

open ParserM

variable {bin : Binary} {depth : ℕ}

/-- The class that is decoded from an address with an empty parser state, by value: the pointers
to its protocols are replaced by what they point to. -/
def classAt (bin : Binary) (depth : ℕ) (a : UInt64) : Option (Class (Option Protocol)) :=
  let r := Class.create bin depth { Parser.initial with pos := a }
  r.1.join.map (Class.map r.2.store.deref)

namespace Parser

open ICDump.Class (superLink slots valueAlong)

/-- Whatever was parsed before, a class has the value that is decoded from the image. -/
lemma create_value {s : Parser} {l : List UInt64} (hs : s.store.WellFormed bin)
    (h : Link.chain (superLink bin) depth s.pos = some l) :
    ∃ o s', Class.create bin depth s = (some o, s') ∧
      o.map (Class.map s'.store.deref) = (valueAlong bin l).map (Class.map some) := by
  obtain ⟨o, -, s', hcreate, -, -, hvalue, -⟩ := create_spec hs h
  exact ⟨o, s', hcreate, hvalue⟩

lemma classAt_eq {a : UInt64} {l : List UInt64}
    (h : Link.chain (superLink bin) depth a = some l) :
    classAt bin depth a = (valueAlong bin l).map (Class.map some) := by
  obtain ⟨o, s', hcreate, hvalue⟩ :=
    create_value (s := { Parser.initial with pos := a }) Store.wellFormed_initial h
  rw [classAt, hcreate, ← hvalue]
  rfl

/-- The protocols of a class are those that its slots lead to. -/
lemma protocols_classAt {a : UInt64} (h : (Link.chain (superLink bin) depth a).isSome)
    {cls : Class (Option Protocol)} (hcls : classAt bin depth a = some cls) :
    cls.protocols = ((slots bin a).filterMap (protocolAt bin)).map some := by
  obtain ⟨l, hl⟩ := Option.isSome_iff_exists.1 h
  obtain ⟨l', rfl⟩ := Link.exists_eq_cons_of_chain hl
  rw [classAt_eq hl, valueAlong, Option.map_map, Option.map_eq_some_iff] at hcls
  obtain ⟨hd, -, rfl⟩ := hcls
  rfl

/-- The classes of a list are decoded one by one. -/
lemma values_chainsOf {entries : List UInt64}
    (h : ∀ entry ∈ entries, (Link.chain (superLink bin) depth (decodePtr bin entry)).isSome) :
    ((chainsOf bin depth entries).filterMap (valueAlong bin)).map (Class.map some) =
      entries.filterMap fun entry => classAt bin depth (decodePtr bin entry) := by
  induction entries with
  | nil => rfl
  | cons entry entries ih =>
      obtain ⟨l, hl⟩ := Option.isSome_iff_exists.1 (h entry List.mem_cons_self)
      have hrest := ih fun e he => h e (List.mem_cons_of_mem entry he)
      rw [chainsOf, hl, List.filterMap_cons, List.filterMap_cons, classAt_eq hl, ← hrest]
      cases valueAlong bin l <;> rfl

/-- **The parser refines the cache-free one.**  When no class that is met is on a cycle of first
pointers, then with enough levels of recursion the parser returns; its classes are those of
`classAt`, in the order of the list; the protocols of each are those that its slots lead to;
and a class made in any other reachable state has the same value. -/
theorem parse_refines (bin : Binary)
    (h : ∀ entry ∈ classlist bin, Link.CycleFree (superLink bin) (decodePtr bin entry)) :
    ∃ N, ∀ depth ≥ N,
      (parse bin depth).1 = some () ∧
      (parse bin depth).2.store.classValues =
        (classlist bin).filterMap (fun entry => classAt bin depth (decodePtr bin entry)) ∧
      (∀ entry ∈ classlist bin, ∀ cls, classAt bin depth (decodePtr bin entry) = some cls →
        cls.protocols =
          ((slots bin (decodePtr bin entry)).filterMap (protocolAt bin)).map some) ∧
      ∀ s, Leads bin initial s → ∀ entry ∈ classlist bin,
        ∃ o s', Class.create bin depth { s with pos := decodePtr bin entry } = (some o, s') ∧
          o.map (Class.map s'.store.deref) = classAt bin depth (decodePtr bin entry) := by
  have hall : ∀ a ∈ (classlist bin).map (decodePtr bin), Link.CycleFree (superLink bin) a := by
    intro a ha
    obtain ⟨entry, hentry, rfl⟩ := List.mem_map.1 ha
    exact h entry hentry
  obtain ⟨N, hN⟩ := Link.exists_bound_of_cycleFree hall
  refine ⟨N, fun depth hdepth => ?_⟩
  have hchain : ∀ entry ∈ classlist bin,
      (Link.chain (superLink bin) depth (decodePtr bin entry)).isSome := fun entry hentry =>
    hN depth hdepth _ (List.mem_map_of_mem hentry)
  obtain ⟨-, -, hvalues, hreturns⟩ := parse_spec bin depth
  refine ⟨?_, hvalues.trans (values_chainsOf hchain), fun entry hentry cls hcls =>
    protocols_classAt (hchain entry hentry) hcls, fun s hs entry hentry => ?_⟩
  · obtain ⟨u, hu⟩ := Option.isSome_iff_exists.1 (hreturns.2 hchain)
    exact hu
  · obtain ⟨l, hl⟩ := Option.isSome_iff_exists.1 (hchain entry hentry)
    obtain ⟨o, s', hcreate, hvalue⟩ :=
      create_value (s := { s with pos := decodePtr bin entry })
        (hs.wellFormed Store.wellFormed_initial) hl
    exact ⟨o, s', hcreate, hvalue.trans (classAt_eq hl).symm⟩

/-- The sample image has one class, which is made with the protocol that its slot leads to. -/
theorem parse_refines_sample :
    ∃ N, ∀ depth ≥ N, ∃ cls,
      (parse (sampleBinary sampleProtolist sampleClasslist) depth).2.store.classValues = [cls] ∧
        cls.protocols = [protocolAt (sampleBinary sampleProtolist sampleClasslist) 0x400] := by
  have hlist : classlist (sampleBinary sampleProtolist sampleClasslist) = [0x100] := rfl
  have hchain : Link.chain (superLink (sampleBinary sampleProtolist sampleClasslist)) 2 0x100 =
      some [0x100, 0x140] := rfl
  obtain ⟨N, hN⟩ := parse_refines (sampleBinary sampleProtolist sampleClasslist) (by
    rw [hlist]
    intro entry hentry
    rw [List.mem_singleton.1 hentry]
    exact Link.cycleFree_of_chain hchain)
  refine ⟨max N 2, fun depth hdepth => ?_⟩
  obtain ⟨-, hvalues, hprotocols, -⟩ := hN depth (le_of_max_le_left hdepth)
  have hclass := classAt_eq (Link.chain_mono (le_of_max_le_right hdepth) hchain)
  obtain ⟨cls, hcls⟩ : ∃ cls,
      classAt (sampleBinary sampleProtolist sampleClasslist) depth 0x100 = some cls := by
    rw [hclass]
    exact ⟨_, rfl⟩
  refine ⟨cls, ?_, ?_⟩
  · rw [hvalues, hlist]
    exact List.filterMap_cons_some hcls
  · rw [hprotocols 0x100 (List.mem_singleton_self _) cls hcls]
    rfl

end Parser

end ICDump
