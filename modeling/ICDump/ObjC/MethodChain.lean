/-
The methods of a class along the chain of its first pointers.

`Class::create` makes the class that the first pointer leads to, takes its methods over, and adds
those in the list of the class itself.  So the methods of a class are those in the lists of all
the structures of its chain, the last first (`create_methods`).
-/
import ICDump.ObjC.Classes

namespace ICDump

/-- The same method, called on instances or not. -/
def Method.withInstance (isInstance : Bool) (m : Method) : Method :=
  { m with isInstance := isInstance }

namespace Class

variable {bin : Binary}

/-! ### The list of a structure -/

/-- The methods that are made of the entries of a list, up to the first that cannot be read. -/
def entriesOfList (bin : Binary) (addr : UInt64) (list : MethodListT) : List Method :=
  (((List.range list.count.toNat).map fun i => (Method.create bin list.isSmall).value
    (addr + .ofNat i * sizeofMeth list.isSmall)).takeWhile Option.isSome).reduceOption

/-- The methods in the list that a pointer leads to. -/
def methodsAt (bin : Binary) (ptr : UInt64) : List Method :=
  if ptr = 0 then []
  else
    match bin.load MethodListT (decodePtr bin ptr) with
    | none => []
    | some list => entriesOfList bin (decodePtr bin ptr + Layout.size MethodListT) list

/-- The methods in the `base_method_list` of the structure at an address. -/
def methodsOf (bin : Binary) (a : UInt64) : List Method :=
  match header bin a with
  | none => []
  | some h => methodsAt bin h.rawRo.baseMethodList

/-- `is_meta` of the structure at an address. -/
def isMetaAt (bin : Binary) (a : UInt64) : Bool := (header bin a).any Header.isMeta

/-- The loop on the list makes the methods, and says whether they are called on instances. -/
lemma value_createWhile_createWith (isSmall isInstance : Bool) (addr p : UInt64) (n : ℕ) :
    (BinaryStream.createWhile (Method.createWith bin isSmall isInstance) addr (sizeofMeth isSmall) 0
        n).value p =
      ((((List.range n).map fun i => (Method.create bin isSmall).value
        (addr + .ofNat i * sizeofMeth isSmall)).takeWhile Option.isSome).reduceOption).map
          (Method.withInstance isInstance) := by
  have hentry : (fun i : ℕ => (Method.createWith bin isSmall isInstance).value
      (addr + .ofNat i * sizeofMeth isSmall)) =
      Option.map (Method.withInstance isInstance) ∘ fun i : ℕ =>
        (Method.create bin isSmall).value (addr + .ofNat i * sizeofMeth isSmall) := rfl
  have hsome : Option.isSome ∘ Option.map (Method.withInstance isInstance) = Option.isSome :=
    funext fun o => Option.isSome_map
  rw [BinaryStream.value_createWhile, hentry, ← List.map_map, List.takeWhile_map, hsome,
    ← List.range_eq_range', List.reduceOption_map]

lemma value_readBaseMethods (ptr : UInt64) (isMeta : Bool) (p : UInt64) :
    (readBaseMethods bin ptr isMeta).value p =
      (methodsAt bin ptr).map (Method.withInstance !isMeta) := by
  rw [readBaseMethods, methodsAt]
  split
  · rfl
  · rw [BinaryStream.value, BinaryStream.scopedStream, BinaryStream.bind_apply]
    cases hlist : bin.load MethodListT (decodePtr bin ptr) with
    | none =>
        rw [BinaryStream.read_of_none hlist]
        rfl
    | some list =>
        rw [BinaryStream.read_of_some hlist]
        exact value_createWhile_createWith _ _ _ _ _

lemma ownMethods_eq (h : Header) :
    ownMethods bin h = (methodsAt bin h.rawRo.baseMethodList).map (Method.withInstance !h.isMeta) :=
  value_readBaseMethods _ _ 0

/-! ### Chains -/

/-- The structures at the addresses can be read, the first pointer of each leads to the next, and
the last has none, or one that leads back to it or to where no structure can be read. -/
inductive MetaChain (bin : Binary) : List UInt64 → Prop
  | last {a : UInt64} {h : Header} (hh : header bin a = some h)
      (hend : h.clsObj.superClass = 0 ∨ decodePtr bin h.clsObj.superClass = a ∨
        header bin (decodePtr bin h.clsObj.superClass) = none) : MetaChain bin [a]
  | cons {a b : UInt64} {l : List UInt64} {h : Header} (hh : header bin a = some h)
      (hlink : h.clsObj.superClass ≠ 0) (hb : decodePtr bin h.clsObj.superClass = b) (hne : b ≠ a)
      (hrest : MetaChain bin (b :: l)) : MetaChain bin (a :: b :: l)

lemma methodsOf_of_header {a : UInt64} {h : Header} (hh : header bin a = some h) :
    methodsOf bin a = methodsAt bin h.rawRo.baseMethodList := by
  rw [methodsOf, hh]

lemma withInstance_withInstance (i j : Bool) :
    Method.withInstance i ∘ Method.withInstance j = Method.withInstance i := rfl

/-- All methods that are taken over are class methods. -/
lemma superMethods_some {P : Type} (cls : Class P) :
    superMethods (some cls) = cls.methods.map (Method.withInstance false) := rfl

variable {s s₁ : Parser} {depth : ℕ} {a : UInt64}

/-- Once the class that the first pointer leads to is made, the class itself is. -/
lemma exists_createFrom {h : Header} {super : Option (Class Ptr)}
    (hsuper : readSuper bin a h.clsObj.superClass (create bin depth) s = (some super, s₁)) :
    ∃ protocols s',
      createFrom bin depth a h s = (some (some (build bin h super protocols)), s') := by
  have htotal : (readBaseProtocols bin h.rawRo.baseProtocols).Total := readBaseProtocols_total _
  obtain ⟨protocols, hprotocols⟩ := Option.isSome_iff_exists.1 (htotal s₁)
  refine ⟨protocols, (readBaseProtocols bin h.rawRo.baseProtocols s₁).2, ?_⟩
  rw [createFrom, Attempt.bind_of_some hsuper, Attempt.bind_of_some (Prod.ext hprotocols rfl)]
  rfl

/-- At the end of a chain no class is taken over from. -/
lemma readSuper_of_end {h : Header} (hend : h.clsObj.superClass = 0 ∨
    decodePtr bin h.clsObj.superClass = a ∨ header bin (decodePtr bin h.clsObj.superClass) = none) :
    readSuper bin a h.clsObj.superClass (create bin (depth + 1)) s = (some none, s) := by
  rw [readSuper]
  by_cases hlink : h.clsObj.superClass ≠ 0 ∧ decodePtr bin h.clsObj.superClass ≠ a
  · have hnone := hend.resolve_left hlink.1 |>.resolve_left hlink.2
    have hcreate : create bin (depth + 1) { s with pos := decodePtr bin h.clsObj.superClass } =
        (some none, { s with pos := decodePtr bin h.clsObj.superClass }) :=
      create_of_header_none hnone
    rw [if_pos hlink, ParserM.scopedStream, hcreate]
  · rw [if_neg hlink]
    rfl

/-- **The methods of a class are those of all structures of its chain**, the last first.  Those
that are not from the structure itself are class methods. -/
theorem create_methods {l : List UInt64} (hchain : MetaChain bin (a :: l)) (hs : s.pos = a)
    (hdepth : (a :: l).length < depth) : ∃ cls s', create bin depth s = (some (some cls), s') ∧
      cls.methods = (l.reverse.flatMap (methodsOf bin)).map (Method.withInstance false) ++
        (methodsOf bin a).map (Method.withInstance !isMetaAt bin a) := by
  induction l generalizing a depth s with
  | nil =>
      obtain ⟨depth, rfl⟩ : ∃ n, depth = n + 2 := ⟨depth - 2, by simp at hdepth; omega⟩
      cases hchain with
      | @last _ h hh hend =>
          subst hs
          obtain ⟨protocols, s', hcreate⟩ := exists_createFrom (readSuper_of_end hend)
          refine ⟨_, s', (create_of_header hh).trans hcreate, ?_⟩
          rw [methodsOf_of_header hh, isMetaAt, hh]
          exact ownMethods_eq h
  | cons b l ih =>
      obtain ⟨depth, rfl⟩ : ∃ n, depth = n + 1 := ⟨depth - 1, by simp at hdepth; omega⟩
      cases hchain with
      | @cons _ _ _ h hh hlink hb hne hrest =>
          subst hs
          have hlt : (b :: l).length < depth := by simpa using hdepth
          obtain ⟨super, s', hsuper, hmethods⟩ := ih hrest (s := { s with pos := b }) rfl hlt
          have hread : readSuper bin s.pos h.clsObj.superClass (create bin depth) s =
              (some (some super), { s' with pos := s.pos }) := by
            rw [readSuper, if_pos ⟨hlink, hb.symm ▸ hne⟩, hb, ParserM.scopedStream, hsuper]
          obtain ⟨protocols, s'', hcreate⟩ := exists_createFrom hread
          refine ⟨_, s'', (create_of_header hh).trans hcreate, ?_⟩
          -- what is taken over loses its flags
          have htaken : superMethods (some super) =
              ((b :: l).reverse.flatMap (methodsOf bin)).map (Method.withInstance false) := by
            rw [superMethods_some, hmethods, List.map_append, List.map_map, List.map_map,
              withInstance_withInstance, withInstance_withInstance, ← List.map_append]
            simp
          rw [methodsOf_of_header hh, isMetaAt, hh, ← htaken]
          exact congrArg _ (ownMethods_eq h)

/-- An image with a class at `0x100` and its metaclass at `0x140`.  The class has the method `f` in
a list of big entries at `0x300`, and the metaclass `g` in one of small entries at `0x340`. -/
def metaBinary : Binary where
  imagebase := 0
  memoryBaseAddress := 0
  getSection _ _ := none
  segmentFromVirtualAddress v :=
    if v < 0x1000 then
      some
        { virtualAddress := 0, virtualSize := 0x1000, fileSize := 0x1000
          content := ⟨fun i =>
            if i = 0x100 then 0x40 else if i = 0x101 then 1 else if i = 0x121 then 2
            else if i = 0x160 then 0x80 else if i = 0x161 then 2 else if i = 0x221 then 3
            else if i = 0x280 then 1 else if i = 0x2a0 then 0x40 else if i = 0x2a1 then 3
            else if i = 0x304 then 1 else if i = 0x308 then 0x80 else if i = 0x318 then 0x11
            else if i = 0x343 then 0x80 else if i = 0x344 then 1 else if i = 0x348 then 0x18
            else if i = 0x350 then 5 else if i = 0x360 then 0x90 else 0, 0x1000⟩ }
    else none
  peekStringAt v :=
    if v = 0 then some [] else if v = 0x80 then some ['f'] else if v = 0x90 then some ['g']
    else none
  hostWord _ := 0

/-- The class method `g` comes before the method `f`. -/
theorem create_methods_two : ∃ cls s',
    create metaBinary 3 { Parser.initial with pos := 0x100 } = (some (some cls), s') ∧
      cls.methods = [⟨['g'], [], 5, false⟩, ⟨['f'], [], 0x11, true⟩] := by
  have hchain : MetaChain metaBinary [0x100, 0x140] :=
    .cons (h := ⟨⟨0x140, 0x200⟩, ⟨0, 0, 0, 0, 0, 0x300, 0, 0, 0⟩, []⟩) rfl (by decide) rfl
      (by decide)
      (.last (h := ⟨⟨0, 0x280⟩, ⟨1, 0, 0, 0, 0, 0x340, 0, 0, 0⟩, []⟩) rfl (Or.inl rfl))
  obtain ⟨cls, s', hcreate, hmethods⟩ :=
    create_methods hchain (s := { Parser.initial with pos := 0x100 }) rfl
      (show [0x100, 0x140].length < 3 by decide)
  exact ⟨cls, s', hcreate, hmethods.trans rfl⟩

end Class

end ICDump
