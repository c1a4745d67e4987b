/-
Classes without a state.

What `Class::create` reads at an address is a function of the image: the structures of the
class, the class that its first pointer leads to, and the slots of its list of protocols.
`valueAlong` puts them together into a class, by value, along the chain of first pointers.
The equations of `Class::create` at the end say that the parser does nothing else but read
these and adopt the protocols in the slots.
-/
import ICDump.Library.Chain
import ICDump.ObjC.Store

namespace ICDump

open ParserM

lemma ParserM.onStream_of_eq {α : Type} {m : BinaryStream α} {a : α} {s : Parser}
    (h : m s.pos = (a, s.pos)) : onStream m s = (some a, s) := by
  rw [onStream, h]

lemma ParserM.onStream_pos (s : Parser) : onStream BinaryStream.pos s = (some s.pos, s) := rfl

namespace Class

/-- The structures of the class at an address, if they can be read. -/
def header (bin : Binary) (a : UInt64) : Option Header := (readHeader bin).value a

/-- The address at which `Class::create`, at the address `a`, calls itself. -/
def superLink (bin : Binary) (a : UInt64) : Option UInt64 := do
  let h ← header bin a
  if h.clsObj.superClass ≠ 0 ∧ decodePtr bin h.clsObj.superClass ≠ a then
    some (decodePtr bin h.clsObj.superClass)
  else none

/-- The decoded pointers in `n` consecutive slots, up to the first that cannot be read. -/
def slotsFrom (bin : Binary) : ℕ → UInt64 → List UInt64
  | 0, _ => []
  | n + 1, pos =>
      match bin.load UInt64 pos with
      | none => []
      | some slot => decodePtr bin slot :: slotsFrom bin n (pos + 8)

/-- The slots of a list of protocols. -/
def slotsOf (bin : Binary) (ptr : UInt64) : List UInt64 :=
  if ptr = 0 then []
  else
    match bin.load ProtocolListT (decodePtr bin ptr) with
    | none => []
    | some list => slotsFrom bin list.count.toNat (decodePtr bin ptr + 8)

/-- The slots of the list of protocols of the class at an address. -/
def slots (bin : Binary) (a : UInt64) : List UInt64 :=
  ((header bin a).map fun h => slotsOf bin h.rawRo.baseProtocols).getD []

/-- The methods in the list of the class itself. -/
def ownMethods (bin : Binary) (h : Header) : List Method :=
  (readBaseMethods bin h.rawRo.baseMethodList h.isMeta).value 0

/-- A class from its structures, the class that it takes methods over from, and its
protocols. -/
def build {P : Type} (bin : Binary) (h : Header) (super : Option (Class P)) (protocols : List P) :
    Class P where
  name := h.name
  flags := h.rawRo.flags
  instanceStart := h.rawRo.instanceStart
  instanceSize := h.rawRo.instanceSize
  reserved := h.rawRo.reserved
  protocols := protocols
  methods := superMethods super ++ ownMethods bin h
  ivars := (readIvars bin h.rawRo.ivars).value 0
  properties := (readProperties bin h.rawRo.baseProperties).value 0

/-- The class at the first of the addresses, by value, when they are the chain of its first
pointers. -/
def valueAlong (bin : Binary) : List UInt64 → Option (Class Protocol)
  | [] => none
  | a :: l =>
      (header bin a).map fun h =>
        build bin h (valueAlong bin l) ((slots bin a).filterMap (protocolAt bin))

/-! ### Reading the structures -/

variable {bin : Binary}

lemma superLink_of_header_none {a : UInt64} (h : header bin a = none) :
    superLink bin a = none := by
  rw [superLink, h]
  rfl

lemma slots_of_header {a : UInt64} {h : Header} (hh : header bin a = some h) :
    slots bin a = slotsOf bin h.rawRo.baseProtocols := by
  rw [slots, hh, Option.map_some, Option.getD_some]

lemma peekRo_restores (clsObj : ObjcClassT) : (peekRo bin clsObj).Restores := by
  refine (BinaryStream.restores_peekAt _).bind fun rawRo => ?_
  cases rawRo with
  | none =>
      show (if 0 < bin.memoryBaseAddress then _ else _ : BinaryStream _).Restores
      split
      · exact BinaryStream.restores_peekAt _
      · exact BinaryStream.restores_pure none
  | some rawRo => exact BinaryStream.restores_pure _

/-- The blocks of `Class::create` restore the position, and it does not matter to them. -/
lemma readBaseMethods_eq (ptr : UInt64) (isMeta : Bool) (p : UInt64) :
    readBaseMethods bin ptr isMeta p = ((readBaseMethods bin ptr isMeta).value 0, p) := by
  rw [readBaseMethods]
  split <;> rfl

lemma readIvars_eq (ptr p : UInt64) :
    readIvars bin ptr p = ((readIvars bin ptr).value 0, p) := by
  rw [readIvars]
  split <;> rfl

lemma readProperties_eq (ptr p : UInt64) :
    readProperties bin ptr p = ((readProperties bin ptr).value 0, p) := by
  rw [readProperties]
  split <;> rfl

lemma map_build {P Q : Type} (f : P → Q) (h : Header) (super : Option (Class P))
    (protocols : List P) :
    (build bin h super protocols).map f =
      build bin h (super.map (Class.map f)) (protocols.map f) := by
  cases super <;> rfl

/-! ### The equations of `Class::create` -/

variable {s : Parser} {depth : ℕ}

/-- What `Class::create` does once it has read the structures. -/
def createFrom (bin : Binary) (depth : ℕ) (a : UInt64) (h : Header) :
    ParserM (Option (Class Ptr)) := do
  let superCls ← readSuper bin a h.clsObj.superClass (create bin depth)
  let protocols ← readBaseProtocols bin h.rawRo.baseProtocols
  return some (build bin h superCls protocols)

lemma readHeader_restores (bin : Binary) : (readHeader bin).Restores := by
  refine BinaryStream.restores_peek.bind fun clsObj => ?_
  cases clsObj with
  | none => exact BinaryStream.restores_pure none
  | some clsObj =>
      refine (peekRo_restores clsObj).bind fun rawRo => ?_
      cases rawRo with
      | none => exact BinaryStream.restores_pure none
      | some rawRo =>
          refine (BinaryStream.restores_peekStringAt _).bind fun name => ?_
          cases name with
          | none => exact BinaryStream.restores_pure none
          | some name => exact BinaryStream.restores_pure _

lemma onStream_readHeader (bin : Binary) (s : Parser) :
    onStream (readHeader bin) s = (some (header bin s.pos), s) :=
  onStream_of_eq ((readHeader_restores bin).eq s.pos)

/-- Where the structures cannot be read, there is no class. -/
lemma create_of_header_none (h : header bin s.pos = none) :
    create bin (depth + 1) s = (some none, s) := by
  have hread := onStream_readHeader bin s
  rw [h] at hread
  rw [create]
  refine (Attempt.bind_of_some (onStream_pos s)).trans ?_
  exact Attempt.bind_of_some hread

/-- Elsewhere the parser follows the first pointer and adopts the protocols in the slots; all
the rest is in the image. -/
lemma create_of_header {h : Header} (hh : header bin s.pos = some h) :
    create bin (depth + 1) s = createFrom bin depth s.pos h s := by
  have hread := onStream_readHeader bin s
  rw [hh] at hread
  rw [create, createFrom]
  refine (Attempt.bind_of_some (onStream_pos s)).trans ?_
  refine (Attempt.bind_of_some hread).trans ?_
  rcases hsuper : readSuper bin s.pos h.clsObj.superClass (create bin depth) s with ⟨_ | super, s₁⟩
  · exact (Attempt.bind_of_none hsuper).trans (Attempt.bind_of_none hsuper).symm
  · refine (Attempt.bind_of_some hsuper).trans (.trans ?_ (Attempt.bind_of_some hsuper).symm)
    refine (Attempt.bind_of_some (onStream_of_eq (readBaseMethods_eq _ _ _))).trans ?_
    rcases hslots : readBaseProtocols bin h.rawRo.baseProtocols s₁ with ⟨_ | protocols, s₂⟩
    · exact (Attempt.bind_of_none hslots).trans (Attempt.bind_of_none hslots).symm
    · refine (Attempt.bind_of_some hslots).trans (.trans ?_ (Attempt.bind_of_some hslots).symm)
      refine (Attempt.bind_of_some (onStream_of_eq (readIvars_eq _ _))).trans ?_
      exact Attempt.bind_of_some (onStream_of_eq (readProperties_eq _ _))

lemma readSuper_eq {a : UInt64} {h : Header} (hh : header bin a = some h)
    (create : ParserM (Option (Class Ptr))) :
    readSuper bin a h.clsObj.superClass create =
      match superLink bin a with
      | some b => scopedStream b create
      | none => return none := by
  have hlink : superLink bin a =
      if h.clsObj.superClass ≠ 0 ∧ decodePtr bin h.clsObj.superClass ≠ a then
        some (decodePtr bin h.clsObj.superClass) else none := by
    rw [superLink, hh]
    rfl
  rw [readSuper, hlink]
  split <;> rfl

/-! ### Termination -/

lemma onStream_total {α : Type} (m : BinaryStream α) : (onStream m).Total := fun _ => rfl

lemma scopedStream_total {α : Type} {m : ParserM α} (hm : m.Total) (offset : UInt64) :
    (ParserM.scopedStream offset m).Total :=
  fun _ => hm _

lemma getOrCreateProtocol_total (a : UInt64) : (Parser.getOrCreateProtocol bin a).Total := by
  refine Attempt.Total.bind (fun _ => rfl) fun store => ?_
  cases store.cache a with
  | some p => exact Attempt.total_pure _
  | none =>
      refine scopedStream_total ((onStream_total _).bind fun o => ?_) a
      cases o with
      | none => exact Attempt.total_pure _
      | some proto =>
          exact Attempt.Total.bind (fun _ => rfl) fun _ => Attempt.Total.bind (fun _ => rfl)
            fun _ => Attempt.total_pure _

lemma adoptProtocols_total (n : ℕ) : (adoptProtocols bin n).Total := by
  induction n with
  | zero => exact Attempt.total_pure _
  | succ n ih =>
      refine (onStream_total _).bind fun slot => ?_
      cases slot with
      | none => exact Attempt.total_pure _
      | some slot =>
          refine (getOrCreateProtocol_total _).bind fun o => ?_
          cases o with
          | none => exact ih
          | some p =>
              exact Attempt.Total.bind (fun _ => rfl) fun _ => ih.bind fun _ => Attempt.total_pure _

/-- Only the recursion along the first pointers can go on for ever. -/
lemma readBaseProtocols_total (ptr : UInt64) : (readBaseProtocols bin ptr).Total := by
  rw [readBaseProtocols]
  split
  · exact Attempt.total_pure _
  · refine scopedStream_total ((onStream_total _).bind fun list => ?_) _
    cases list with
    | none => exact Attempt.total_pure _
    | some list => exact adoptProtocols_total _

/-- `Class::create` returns with as many levels of recursion as the chain of first pointers
has links. -/
lemma isSome_create (depth : ℕ) (s : Parser) :
    (create bin depth s).1.isSome = (Link.chain (superLink bin) depth s.pos).isSome := by
  induction depth generalizing s with
  | zero => rfl
  | succ depth ih =>
      cases hh : header bin s.pos with
      | none =>
          rw [create_of_header_none hh,
            Link.chain_succ_of_none (superLink_of_header_none hh)]
          rfl
      | some h =>
          rw [create_of_header hh, createFrom, Attempt.isSome_bind fun _ =>
            (readBaseProtocols_total _).bind fun _ => Attempt.total_pure _, readSuper_eq hh]
          cases hlink : superLink bin s.pos with
          | none =>
              rw [Link.chain_succ_of_none hlink]
              rfl
          | some b =>
              rw [Link.chain_succ_of_some hlink, Option.isSome_map]
              exact ih { s with pos := b }

instance : Finite UInt64 := Finite.of_injective UInt64.toFin fun _ _ => UInt64.toFin_inj.1

/-- **Termination of class parsing.**  `Class::create` returns exactly when no class that the
first pointers lead to is on a cycle of first pointers. -/
theorem create_terminates (bin : Binary) (s : Parser) :
    (∃ depth, (create bin depth s).1.isSome) ↔ Link.CycleFree (superLink bin) s.pos := by
  rw [← Link.exists_chain_iff]
  exact exists_congr fun depth => by rw [isSome_create]

/-- Once it returns, more levels of recursion make no difference. -/
lemma create_mono {n m : ℕ} (hnm : n ≤ m) {s : Parser}
    (h : (Link.chain (superLink bin) n s.pos).isSome) : create bin m s = create bin n s := by
  induction n generalizing m s with
  | zero => exact absurd h (by simp [Link.chain])
  | succ n ih =>
      obtain ⟨m, rfl⟩ := Nat.exists_eq_succ_of_ne_zero (show m ≠ 0 by omega)
      cases hh : header bin s.pos with
      | none => rw [create_of_header_none hh, create_of_header_none hh]
      | some hd =>
          rw [create_of_header hh, create_of_header hh, createFrom, createFrom, readSuper_eq hh,
            readSuper_eq hh]
          cases hlink : superLink bin s.pos with
          | none => rfl
          | some b =>
              rw [Link.chain_succ_of_some hlink, Option.isSome_map] at h
              have hsuper : scopedStream b (create bin m) s = scopedStream b (create bin n) s := by
                rw [scopedStream, scopedStream, ih (by omega) h]
              show (scopedStream b (create bin m) >>= _) s = (scopedStream b (create bin n) >>= _) s
              rcases hr : scopedStream b (create bin n) s with ⟨_ | o, s₁⟩
              · rw [hr] at hsuper
                rw [Attempt.bind_of_none hsuper, Attempt.bind_of_none hr]
              · rw [hr] at hsuper
                rw [Attempt.bind_of_some hsuper, Attempt.bind_of_some hr]

/-- Two classes, at `0x60` and `0xa0`, whose first pointers lead to each other.  All other bytes
of the image are zero. -/
def cyclicBinary : Binary where
  imagebase := 0
  memoryBaseAddress := 0
  getSection _ _ := none
  segmentFromVirtualAddress v :=
    if v < 0x1000 then
      some
        { virtualAddress := 0, virtualSize := 0x1000, fileSize := 0x1000
          content := ⟨fun i => if i = 0x60 then 0xa0 else if i = 0xa0 then 0x60 else 0, 0x1000⟩ }
    else none
  peekStringAt _ := some []
  hostWord _ := 0

/-- No depth is enough for the class at `0x60`. -/
theorem create_cyclic :
    ¬ ∀ (bin : Binary) (s : Parser), ∃ depth, (create bin depth s).1.isSome := by
  intro h
  obtain ⟨depth, hdepth⟩ := h cyclicBinary { Parser.initial with pos := 0x60 }
  rw [isSome_create] at hdepth
  have hfree := Link.exists_chain_iff.1 ⟨depth, hdepth⟩
  have hthere : superLink cyclicBinary 0x60 = some 0xa0 := by rfl
  have hback : superLink cyclicBinary 0xa0 = some 0x60 := by rfl
  exact hfree 0x60 .refl (.head hthere (.single hback))

end Class

end ICDump
