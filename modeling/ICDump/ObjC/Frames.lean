/-
What making an object leaves alone (`Class.cpp`, `Protocol.cpp`, `Method.cpp`, `Parser.cpp`).

The functions that make objects share one stream.  Each restores its position, so the loop of
`Class::create` on the slots of a list of protocols finds the next slot where it left off, although
a whole protocol is parsed in between: it asks for the protocols in the consecutive slots, one
after the other (`readBaseProtocols_eq`).
-/
import ICDump.ObjC.Runs

namespace ICDump

open ParserM

variable {α β : Type} {bin : Binary}

namespace ParserM

/-- The computation leaves the stream at the position at which it found it. -/
def Restores (m : ParserM α) : Prop := ∀ s, (m s).2.pos = s.pos

/-- A function that returns leaves the stream at the position at which it found it, and if it
returns null, all of the parser is as before. -/
def Frames (m : ParserM (Option α)) : Prop :=
  ∀ s o s', m s = (some o, s') → s'.pos = s.pos ∧ (o = none → s' = s)

lemma restores_pure (a : α) : Restores (pure a : ParserM α) := fun _ => rfl

lemma restores_scopedStream (offset : UInt64) (m : ParserM α) :
    Restores (scopedStream offset m) :=
  fun _ => rfl

lemma restores_perform (a : Action) : Restores (perform a) := fun _ => rfl

lemma Restores.bind {m : ParserM α} {f : α → ParserM β} (hm : Restores m)
    (hf : ∀ a, Restores (f a)) : Restores (m >>= f) := by
  intro s
  have hs := hm s
  rcases hms : m s with ⟨_ | a, s₁⟩
  · rw [hms] at hs
    rw [Attempt.bind_of_none hms]
    exact hs
  · rw [hms] at hs
    rw [Attempt.bind_of_some hms]
    exact (hf a s₁).trans hs

/-- A computation on the stream that restores the position changes nothing. -/
lemma frames_onStream {m : BinaryStream (Option α)} (hm : m.Restores) : Frames (onStream m) := by
  rintro s o s' h
  have hs : s' = s := by
    rw [onStream_of_eq (hm.eq s.pos)] at h
    exact (Prod.mk.inj h).2.symm
  exact ⟨congrArg Parser.pos hs, fun _ => hs⟩

end ParserM

/-! ### The slots of a list of protocols -/

namespace Parser

/-- The parser does not look at the position when it is asked for a protocol. -/
lemma getOrCreateProtocol_pos (bin : Binary) (a p : UInt64) (s : Parser) :
    getOrCreateProtocol bin a { s with pos := p } =
      ((getOrCreateProtocol bin a s).1, { (getOrCreateProtocol bin a s).2 with pos := p }) := by
  cases hc : s.store.cache a with
  | some q =>
      rw [getOrCreateProtocol_of_cached hc]
      exact getOrCreateProtocol_of_cached hc
  | none =>
      cases ha : protocolAt bin a with
      | none =>
          rw [getOrCreateProtocol_of_unreadable hc ha]
          exact getOrCreateProtocol_of_unreadable hc ha
      | some proto =>
          rw [getOrCreateProtocol_of_missing hc ha]
          exact getOrCreateProtocol_of_missing hc ha

end Parser

namespace Class

/-- Ask for the protocols at the addresses, and hold those that there are. -/
def adoptEach (bin : Binary) : List UInt64 → ParserM (List Ptr)
  | [] => return []
  | a :: l => do
    match ← Parser.getOrCreateProtocol bin a with
    | some proto =>
      perform (.holdProtocol proto)
      return proto :: (← adoptEach bin l)
    | none => adoptEach bin l

variable {s : Parser}

lemma getOrCreateProtocol_restores (bin : Binary) (a : UInt64) :
    Restores (Parser.getOrCreateProtocol bin a) := by
  intro s
  -- the position could as well have been set to what it is
  exact (congrArg (fun r => r.2.pos) (Parser.getOrCreateProtocol_pos bin a s.pos s))

lemma adoptEach_restores (bin : Binary) (l : List UInt64) : Restores (adoptEach bin l) := by
  induction l with
  | nil => exact restores_pure []
  | cons a l ih =>
      refine (getOrCreateProtocol_restores bin a).bind fun o => ?_
      cases o with
      | none => exact ih
      | some proto => exact (restores_perform _).bind fun _ => ih.bind fun _ => restores_pure _

section

variable {s₁ : Parser} {a : UInt64} {l : List UInt64} {q : Ptr} {n : ℕ}

lemma adoptEach_cons_of_none (h : Parser.getOrCreateProtocol bin a s = (some none, s₁)) :
    adoptEach bin (a :: l) s = adoptEach bin l s₁ := by
  rw [adoptEach, Attempt.bind_of_some h]

lemma adoptEach_cons_of_some (h : Parser.getOrCreateProtocol bin a s = (some (some q), s₁)) :
    adoptEach bin (a :: l) s =
      ((adoptEach bin l (perform (.holdProtocol q) s₁).2).1.map (q :: ·),
        (adoptEach bin l (perform (.holdProtocol q) s₁).2).2) := by
  rw [adoptEach, Attempt.bind_of_some h]
  exact Attempt.bind_pure (m := adoptEach bin l) _

lemma read_slot {slot : UInt64} (h : bin.load UInt64 s.pos = some slot) :
    onStream (BinaryStream.read UInt64 bin) s =
      (some (some slot), { s with pos := s.pos + 8 }) := by
  rw [onStream, BinaryStream.read_of_some h]
  rfl

lemma adoptProtocols_of_none {slot : UInt64} (hslot : bin.load UInt64 s.pos = some slot)
    (h : Parser.getOrCreateProtocol bin (decodePtr bin slot) { s with pos := s.pos + 8 } =
      (some none, s₁)) : adoptProtocols bin (n + 1) s = adoptProtocols bin n s₁ := by
  rw [adoptProtocols, Attempt.bind_of_some (read_slot hslot)]
  exact Attempt.bind_of_some h

lemma adoptProtocols_of_some {slot : UInt64} (hslot : bin.load UInt64 s.pos = some slot)
    (h : Parser.getOrCreateProtocol bin (decodePtr bin slot) { s with pos := s.pos + 8 } =
      (some (some q), s₁)) :
    adoptProtocols bin (n + 1) s =
      ((adoptProtocols bin n (perform (.holdProtocol q) s₁).2).1.map (q :: ·),
        (adoptProtocols bin n (perform (.holdProtocol q) s₁).2).2) := by
  rw [adoptProtocols, Attempt.bind_of_some (read_slot hslot)]
  exact (Attempt.bind_of_some h).trans (Attempt.bind_pure (m := adoptProtocols bin n) _)

lemma adoptProtocols_of_unreadable (hslot : bin.load UInt64 s.pos = none) :
    adoptProtocols bin (n + 1) s = (some [], s) := by
  have hread : onStream (BinaryStream.read UInt64 bin) s = (some none, s) :=
    onStream_of_eq (BinaryStream.read_of_none hslot)
  rw [adoptProtocols, Attempt.bind_of_some hread]
  rfl

end

/-- The loop on the slots asks for the protocols in the consecutive slots, and the stream ends up
behind the last of them. -/
lemma adoptProtocols_eq (bin : Binary) (n : ℕ) (p : UInt64) (s : Parser) :
    adoptProtocols bin n { s with pos := p } =
      ((adoptEach bin (slotsFrom bin n p) s).1,
        { (adoptEach bin (slotsFrom bin n p) s).2 with
          pos := p + 8 * .ofNat (slotsFrom bin n p).length }) := by
  induction n generalizing p s with
  | zero =>
      show _ = (some [], { s with pos := p + 8 * 0 })
      rw [UInt64.mul_zero, UInt64.add_zero]
      rfl
  | succ n ih =>
      rw [slotsFrom]
      cases hslot : bin.load UInt64 p with
      | none =>
          rw [adoptProtocols_of_unreadable (s := { s with pos := p }) hslot]
          show _ = (some [], { s with pos := p + 8 * 0 })
          rw [UInt64.mul_zero, UInt64.add_zero]
      | some slot =>
          have hpos : p + 8 + 8 * .ofNat (slotsFrom bin n (p + 8)).length =
              p + 8 * .ofNat (decodePtr bin slot :: slotsFrom bin n (p + 8)).length := by
            rw [List.length_cons, Nat.add_comm, UInt64.ofNat_add, UInt64.mul_add,
              ← UInt64.add_assoc]
            rfl
          have hget := Parser.getOrCreateProtocol_pos bin (decodePtr bin slot) (p + 8) s
          have htotal : (Parser.getOrCreateProtocol bin (decodePtr bin slot) s).1.isSome :=
            getOrCreateProtocol_total (decodePtr bin slot) s
          rw [← hpos]
          rcases hrun : Parser.getOrCreateProtocol bin (decodePtr bin slot) s with ⟨_ | _ | q, s₁⟩
          · exact absurd htotal (by simp [hrun])
          · rw [hrun] at hget
            rw [adoptProtocols_of_none (s := { s with pos := p }) hslot hget,
              adoptEach_cons_of_none hrun]
            exact ih (p + 8) s₁
          · rw [hrun] at hget
            rw [adoptProtocols_of_some (s := { s with pos := p }) hslot hget,
              adoptEach_cons_of_some hrun]
            -- the protocol is held, and the loop goes on from there
            have hloop := ih (p + 8) (perform (.holdProtocol q) s₁).2
            exact congrArg (fun r : Option (List Ptr) × Parser => (r.1.map (q :: ·), r.2)) hloop

/-- The block on `base_protocols` asks for the protocols in the consecutive slots of the list. -/
lemma readBaseProtocols_eq (ptr : UInt64) (s : Parser) :
    readBaseProtocols bin ptr s = adoptEach bin (slotsOf bin ptr) s := by
  rw [readBaseProtocols, slotsOf]
  split
  · rfl
  · cases hlist : bin.load ProtocolListT (decodePtr bin ptr) with
    | none =>
        have hread : onStream (BinaryStream.read ProtocolListT bin)
            { s with pos := decodePtr bin ptr } =
            (some none, { s with pos := decodePtr bin ptr }) :=
          onStream_of_eq (BinaryStream.read_of_none hlist)
        rw [scopedStream, Attempt.bind_of_some hread]
        rfl
    | some list =>
        have hread : onStream (BinaryStream.read ProtocolListT bin)
            { s with pos := decodePtr bin ptr } =
            (some (some list), { s with pos := decodePtr bin ptr + 8 }) := by
          rw [onStream, BinaryStream.read_of_some hlist]
          rfl
        have hloop := adoptProtocols_eq bin list.count.toNat (decodePtr bin ptr + 8) s
        have hpos := adoptEach_restores bin
          (slotsFrom bin list.count.toNat (decodePtr bin ptr + 8)) s
        refine (Parser.scopedStream_eq ((Attempt.bind_of_some hread).trans hloop)).trans ?_
        -- the scope ends where it started, and so does the sequence of requests
        simp only [← hpos]

/-! ### The functions that make objects -/

lemma readSuper_restores (a link : UInt64) (create : ParserM (Option (Class Ptr))) :
    Restores (readSuper bin a link create) := by
  rw [readSuper]
  split
  · exact restores_scopedStream _ _
  · exact restores_pure none

lemma createFrom_restores (bin : Binary) (depth : ℕ) (a : UInt64) (h : Header) :
    Restores (createFrom bin depth a h) := by
  refine (readSuper_restores _ _ _).bind fun superCls =>
    Restores.bind (fun s => ?_) fun protocols => restores_pure _
  rw [readBaseProtocols_eq]
  exact adoptEach_restores bin _ s

/-- A class is null only if its structures cannot be read. -/
lemma createFrom_ne_none {depth : ℕ} {a : UInt64} {h : Header} {s' : Parser} :
    createFrom bin depth a h s ≠ (some none, s') := by
  rw [createFrom]
  intro hcreate
  rcases hsuper : readSuper bin a h.clsObj.superClass (create bin depth) s with ⟨_ | super, s₁⟩
  · rw [Attempt.bind_of_none hsuper] at hcreate
    cases hcreate
  · rw [Attempt.bind_of_some hsuper, Attempt.bind_pure] at hcreate
    obtain ⟨protocols, -, hcls⟩ := Option.map_eq_some_iff.1 (Prod.mk.inj hcreate).1
    cases hcls

lemma create_frames (bin : Binary) (depth : ℕ) : Frames (create bin depth) := by
  rintro s o s' hcreate
  cases depth with
  | zero => cases hcreate
  | succ depth =>
      cases hh : header bin s.pos with
      | none =>
          rw [create_of_header_none hh] at hcreate
          obtain ⟨-, rfl⟩ := Prod.mk.inj hcreate
          exact ⟨rfl, fun _ => rfl⟩
      | some h =>
          rw [create_of_header hh] at hcreate
          have hpos := createFrom_restores bin depth s.pos h s
          rw [hcreate] at hpos
          refine ⟨hpos, ?_⟩
          rintro rfl
          exact absurd hcreate createFrom_ne_none

end Class

lemma Parser.getOrCreateProtocol_frames (bin : Binary) (a : UInt64) :
    Frames (Parser.getOrCreateProtocol bin a) := by
  rintro s o s' hget
  have hpos := Class.getOrCreateProtocol_restores bin a s
  rw [hget] at hpos
  refine ⟨hpos, ?_⟩
  rintro rfl
  cases hc : s.store.cache a with
  | some p =>
      rw [getOrCreateProtocol_of_cached hc] at hget
      cases hget
  | none =>
      cases ha : protocolAt bin a with
      | none =>
          rw [getOrCreateProtocol_of_unreadable hc ha] at hget
          exact (Prod.mk.inj hget).2.symm
      | some proto =>
          rw [getOrCreateProtocol_of_missing hc ha] at hget
          cases hget

/-- **Making an object leaves the parser as it was**, apart from what it registers: the position is
restored, and a failure changes nothing.  So the loop of `Class::create` on the protocols of a
class goes through the consecutive slots of the list. -/
theorem creators_frame (bin : Binary) :
    (∀ isSmall, Frames (onStream (Method.create bin isSmall))) ∧
      Frames (onStream (IVar.create bin)) ∧ Frames (onStream (Property.create bin)) ∧
      Frames (onStream (Protocol.create bin)) ∧
      (∀ a, Frames (Parser.getOrCreateProtocol bin a)) ∧
      (∀ depth, Frames (Class.create bin depth)) ∧
      ∀ ptr s, Class.readBaseProtocols bin ptr s =
        Class.adoptEach bin (Class.slotsOf bin ptr) s :=
  ⟨fun isSmall => frames_onStream (Method.create_restores bin isSmall),
    frames_onStream (IVar.create_restores bin), frames_onStream (Property.create_restores bin),
    frames_onStream (Protocol.create_restores bin), Parser.getOrCreateProtocol_frames bin,
    Class.create_frames bin, Class.readBaseProtocols_eq⟩

end ICDump
