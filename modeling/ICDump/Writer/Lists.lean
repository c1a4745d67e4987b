/-
Strings, structures and lists, written and read.

`At base P off` says that there is something at a place of the image, `EntriesAt` that a loop of
the parser finds objects from an address on.  Each function of the writer gets one lemma, which
says what is at the place that it returns; what the readers of the parser make of a pointer to
that place follows from it.
-/
import Mathlib.Data.List.TakeWhile
import ICDump.ObjC.MethodLists
import ICDump.Writer.Spec

namespace ICDump

open Emit

variable {base : UInt64} {bin : Binary} {final : List UInt8} {form : PtrForm base}

/-! ### Places -/

lemma add_place (base : UInt64) (p k : ℕ) :
    base + .ofNat (p + k) = base + .ofNat p + .ofNat k := by
  rw [UInt64.ofNat_add, UInt64.add_assoc]

/-- There is something at a place of the image at `base`. -/
structure At (base : UInt64) (P : UInt64 → Prop) (off : ℕ) : Prop where
  pos : 0 < off
  lt : off < 2 ^ 31
  there : P (base + .ofNat off)

namespace At

variable {P Q : UInt64 → Prop} {off : ℕ}

lemma mono (h : At base P off) (hPQ : ∀ a, P a → Q a) : At base Q off :=
  ⟨h.pos, h.lt, hPQ _ h.there⟩

lemma store_ne_zero (h : At base P off) : form.store off ≠ 0 := form.store_ne_zero h.pos h.lt

lemma decode_store (h : At base P off) (hbase : bin.imagebase = base) :
    decodePtr bin (form.store off) = base + .ofNat off :=
  form.decode_store h.pos h.lt hbase

/-- It is found through the pointer that is stored for the place. -/
lemma stored (h : At base P off) (hbase : bin.imagebase = base) :
    P (decodePtr bin (form.store off)) := by
  rw [h.decode_store hbase]
  exact h.there

end At

/-- A reader that makes nothing of a null pointer reads what may be missing. -/
lemma read_storeOption {α β : Type} {P : α → UInt64 → Prop} {o : Option α} {off : Option ℕ}
    (h : Option.Rel (fun x => At base (P x)) o off) (hbase : bin.imagebase = base)
    (read : UInt64 → List β) {value : α → List β} (hnull : read 0 = [])
    (hread : ∀ x ptr, ptr ≠ 0 → P x (decodePtr bin ptr) → read ptr = value x) :
    read (form.storeOption off) = o.elim [] value := by
  cases h with
  | none => exact hnull
  | some hx => exact hread _ _ hx.store_ne_zero (hx.stored hbase)

section

variable (hbin : Shows bin base final)

include hbin

/-- Where a block that is not empty was written, there is something. -/
lemma At.of_block {P : UInt64 → Prop} {block : List UInt8} {off : ℕ} (hne : block ≠ [])
    (hpos : 0 < off) (hblock : block <+: final.drop off) (hP : P (base + .ofNat off)) :
    At base P off :=
  ⟨hpos, (lt_length_of_written hne hblock).trans hbin.length_lt, hP⟩

lemma emits_string (s : CString) :
    Emits final (emitString s) (At base fun a => bin.peekStringAt a = some s.chars) :=
  (Emits.emit _).mono fun _ h => .of_block hbin (by simp [CString.bytes]) h.1 h.2
    (hbin.peekStringAt h.2)

lemma emits_record {α : Type} [Layout α] [Record α] (hsize : 0 < (Layout.size α).toNat) (x : α) :
    Emits final (emitRecord x) fun off =>
      At base (fun a => bin.load α a = some x) off ∧ off % 8 = 0 :=
  (Emits.emitAligned 0 (by decide) _).mono fun _ h =>
    ⟨.of_block hbin (bytes_ne_nil hsize x) h.1 h.2.2 (hbin.load hsize h.2.2), h.2.1⟩

end

/-! ### Entries -/

/-- At an address and at a fixed stride from it on, `create` makes the objects of a list. -/
inductive EntriesAt {α : Type} (create : UInt64 → Option α) (stride : UInt64) :
    UInt64 → List α → Prop
  | nil {addr : UInt64} : EntriesAt create stride addr []
  | cons {addr : UInt64} {x : α} {xs : List α} (hx : create addr = some x)
      (hxs : EntriesAt create stride (addr + stride) xs) : EntriesAt create stride addr (x :: xs)

namespace EntriesAt

variable {α β γ : Type} {make : UInt64 → Option α} {stride addr : UInt64} {xs : List α}

/-- The loops of the parser reach the entries by their index. -/
lemma range (h : EntriesAt make stride addr xs) :
    (List.range xs.length).map (fun i => make (addr + .ofNat i * stride)) = xs.map some := by
  induction h with
  | nil => rfl
  | @cons addr x xs hx _ ih =>
      have hzero : addr + .ofNat 0 * stride = addr := by
        rw [show UInt64.ofNat 0 = 0 from rfl, UInt64.zero_mul, UInt64.add_zero]
      have hsucc : ∀ i, addr + .ofNat (i + 1) * stride = addr + stride + .ofNat i * stride := by
        intro i
        rw [UInt64.ofNat_add, UInt64.add_mul, UInt64.add_comm (.ofNat i * stride)]
        show _ + (1 * stride + _) = _
        rw [UInt64.one_mul, UInt64.add_assoc]
      rw [List.length_cons, List.range_succ_eq_map, List.map_cons, List.map_map, List.map_cons,
        hzero, hx, ← ih]
      simp only [Function.comp_def, Nat.succ_eq_add_one, hsucc]

/-- Objects that are made of records. -/
lemma of_records {R : β → γ → Prop} {ys : List β} {records : List γ} {load : UInt64 → Option γ}
    {value : β → α} (h : EntriesAt load stride addr records)
    (hR : List.Forall₂ R ys records)
    (hmake : ∀ y r a, R y r → load a = some r → make a = some (value y)) :
    EntriesAt make stride addr (ys.map value) := by
  induction hR generalizing addr with
  | nil => exact .nil
  | cons hy _ ih =>
      cases h with
      | cons hx hxs => exact .cons (hmake _ _ _ hy hx) (ih hxs)

end EntriesAt

lemma reduceOption_map_some {α : Type} (xs : List α) : (xs.map some).reduceOption = xs := by
  rw [List.reduceOption, List.filterMap_map]
  exact List.filterMap_some

lemma takeWhile_map_some {α : Type} (xs : List α) :
    (xs.map some).takeWhile Option.isSome = xs.map some := by
  rw [List.takeWhile_map]
  exact congrArg _ (List.takeWhile_eq_self_iff.2 fun _ _ => rfl)

section

variable (hbin : Shows bin base final)

include hbin

/-- Consecutive records are read one after the other. -/
lemma loadAll {α : Type} [Layout α] [Record α] (hsize : 0 < (Layout.size α).toNat) {xs : List α}
    {off : ℕ} (h : xs.flatMap Record.bytes <+: final.drop off) :
    EntriesAt (bin.load α) (Layout.size α) (base + .ofNat off) xs := by
  induction xs generalizing off with
  | nil => exact .nil
  | cons x xs ih =>
      rw [List.flatMap_cons] at h
      have hrest := prefix_behind h
      rw [Record.length_bytes] at hrest
      have hxs := ih hrest
      rw [add_place, UInt64.ofNat_toNat] at hxs
      exact .cons (hbin.load hsize ((List.prefix_append _ _).trans h)) hxs

/-- A list that was written has its header and its entries. -/
lemma emits_list {α β γ : Type} [Layout β] [Record β] [Layout γ] [Record γ]
    {header : ℕ → β} {entry : α → Emit UInt8 γ} {R : α → γ → Prop}
    (hheader : Layout.size β = 8) (hsize : 0 < (Layout.size γ).toNat)
    (h : ∀ x, Emits final (entry x) (R x)) (xs : List α) :
    Emits final (emitList header entry xs) fun off => ∃ records, List.Forall₂ R xs records ∧
      xs.length < 2 ^ 31 ∧ At base (fun a => bin.load β a = some (header xs.length) ∧
        EntriesAt (bin.load γ) (Layout.size γ) (a + 8) records) off := by
  refine (Emits.emitEach h xs).bind fun records =>
    (Emits.emitAligned 0 (by decide) _).mono fun off hoff hrecords => ⟨records, hrecords, ?_⟩
  obtain ⟨hpos, -, hblock⟩ := hoff
  have hentries := prefix_behind hblock
  rw [Record.length_bytes, hheader] at hentries
  refine ⟨?_, .of_block hbin ?_ hpos hblock ⟨?_, ?_⟩⟩
  · have hlength : (records.flatMap Record.bytes).length ≤ final.length :=
      hentries.length_le.trans (by simp)
    rw [length_flatMap_bytes, ← hrecords.length_eq] at hlength
    exact (Nat.le_mul_of_pos_right _ hsize).trans_lt (hlength.trans_lt hbin.length_lt)
  · exact List.append_ne_nil_of_left_ne_nil (bytes_ne_nil (by rw [hheader]; decide) _) _
  · rw [hrecords.length_eq]
    exact hbin.load (by rw [hheader]; decide) ((List.prefix_append _ _).trans hblock)
  · have hloads := loadAll hbin hsize hentries
    rwa [add_place] at hloads

end

/-! ### Methods -/

/-- The method that is declared, where `addr` is what is made of its implementation. -/
def MethodSpec.value {T : Type} (addr : T → UInt64) (meth : MethodSpec T) : Method where
  name := meth.name.chars
  mangledType := meth.type.chars
  addr := addr meth.imp
  isInstance := true

/-- The methods of a list, as they come back.  What they have as their addresses is what is stored
for their implementations: the offset of a small method with its sign extended, and the pointer of
another method as it is. -/
def MethodListSpec.methods : MethodListSpec → List Method
  | .small methods => methods.map (MethodSpec.value fun imp => imp.toInt64.toUInt64)
  | .big methods => methods.map (MethodSpec.value id)

/-- At an address there is a list of methods. -/
def MethodsAt (bin : Binary) (methods : List Method) (a : UInt64) : Prop :=
  ∃ list, bin.load MethodListT a = some list ∧ list.count.toNat = methods.length ∧
    EntriesAt (Method.create bin list.isSmall).value (sizeofMeth list.isSmall) (a + 8) methods

section

variable (hbin : Shows bin base final)

lemma isSmall_big (n : UInt32) : (MethodListT.mk 24 n).isSmall = false := by
  show ((24 : UInt32) &&& MethodListT.flagMask &&& MethodListT.isSmallFlag != 0) = false
  decide

lemma isSmall_small (n : UInt32) : (MethodListT.mk 0x8000000c n).isSmall = true := by
  show ((0x8000000c : UInt32) &&& MethodListT.flagMask &&& MethodListT.isSmallFlag != 0) = true
  decide

lemma toNat_count {n : ℕ} (h : n < 2 ^ 31) : (UInt32.ofNat n).toNat = n :=
  UInt32.toNat_ofNat_of_lt' (h.trans (by decide))

/-- An offset leads to its target. -/
lemma relative_offsetTo {p t : ℕ} (hp : p < 2 ^ 31) (ht : t < 2 ^ 31) :
    relative (base + .ofNat p) (offsetTo p t) = base + .ofNat t := by
  have hoff : (offsetTo p t).toInt64.toUInt64.toBitVec = BitVec.ofInt 64 (t - p) := by
    have hint : (offsetTo p t).toInt64.toInt = t - p := by
      rw [Int32.toInt_toInt64, offsetTo]
      exact Int32.toInt_ofInt_of_le (by omega) (by omega)
    rw [← hint, Int64.toBitVec_toUInt64, ← Int64.toInt_toBitVec, BitVec.ofInt_toInt]
  have hsum : BitVec.ofNat 64 p + BitVec.ofInt 64 (t - p) = BitVec.ofNat 64 t := by
    rw [← BitVec.ofInt_natCast, ← BitVec.ofInt_natCast, ← BitVec.ofInt_add]
    congr 1
    omega
  apply UInt64.toBitVec_inj.1
  rw [relative, UInt64.toBitVec_add, UInt64.toBitVec_add, UInt64.toBitVec_add, hoff]
  show base.toBitVec + BitVec.ofNat 64 p + _ = base.toBitVec + BitVec.ofNat 64 t
  rw [BitVec.add_assoc, hsum]

/-- The slot and the type of a small method are in the image. -/
structure SmallPartsAt (bin : Binary) (base : UInt64) (meth : MethodSpec Int32)
    (parts : ℕ × ℕ × Int32) : Prop where
  slot : At base (fun a => ∃ ptr, bin.load UInt64 a = some ptr ∧
    bin.peekStringAt (decodePtr bin ptr) = some meth.name.chars) parts.1
  types : At base (fun a => bin.peekStringAt a = some meth.type.chars) parts.2.1
  imp : parts.2.2 = meth.imp

include hbin

lemma emits_smallParts (meth : MethodSpec Int32) :
    Emits final (emitSmallParts form meth) (SmallPartsAt bin base meth) := by
  refine (emits_string hbin meth.name).bind fun name => ?_
  refine (emits_record hbin (by decide) (form.store name)).bind fun slot => ?_
  refine (emits_string hbin meth.type).map fun types htypes hslot hname => ⟨?_, htypes, rfl⟩
  exact hslot.1.mono fun a ha => ⟨_, ha, hname.stored hbin.imagebase⟩

lemma emits_bigEntry (meth : MethodSpec UInt64) :
    Emits final (emitBigEntry form meth) fun raw =>
      bin.peekStringAt (decodePtr bin raw.name) = some meth.name.chars ∧
        bin.peekStringAt (decodePtr bin raw.types) = some meth.type.chars ∧
          raw.imp = meth.imp := by
  refine (emits_string hbin meth.name).bind fun name => ?_
  refine (emits_string hbin meth.type).map fun types htypes hname => ?_
  exact ⟨hname.stored hbin.imagebase, htypes.stored hbin.imagebase, rfl⟩

omit hbin in
lemma length_smallEntries (p : ℕ) (parts : List (ℕ × ℕ × Int32)) :
    (smallEntries p parts).length = parts.length := by
  induction parts generalizing p with
  | nil => rfl
  | cons _ _ ih => rw [smallEntries, List.length_cons, ih, List.length_cons]

/-- The entries of small methods, each relative to its own place. -/
lemma small_entriesAt {methods : List (MethodSpec Int32)} {parts : List (ℕ × ℕ × Int32)}
    (h : List.Forall₂ (SmallPartsAt bin base) methods parts) {p : ℕ}
    (hblock : (smallEntries p parts).flatMap Record.bytes <+: final.drop p) :
    EntriesAt (Method.create bin true).value (sizeofMeth true) (base + .ofNat p)
      (methods.map (MethodSpec.value fun imp => imp.toInt64.toUInt64)) := by
  induction h generalizing p with
  | nil => exact .nil
  | @cons meth parts methods rest hmeth _ ih =>
      rw [smallEntries, List.flatMap_cons] at hblock
      have hrest := prefix_behind hblock
      rw [Record.length_bytes] at hrest
      have hload := hbin.load (by decide) ((List.prefix_append _ _).trans hblock)
      have hlt : p + 4 < 2 ^ 31 := by
        have hlength := hblock.length_le
        rw [List.length_append, Record.length_bytes, List.length_drop] at hlength
        have hsize : (Layout.size SmallMethodT).toNat = 12 := rfl
        have hfinal := hbin.length_lt
        omega
      refine .cons ((Method.value_createSmall hload).trans ?_) ?_
      · have hname : relative (base + .ofNat p) (smallEntry p parts).name =
            base + .ofNat parts.1 := relative_offsetTo (by omega) hmeth.slot.lt
        have htypes : relative (base + .ofNat p + 4) (smallEntry p parts).types =
            base + .ofNat parts.2.1 := by
          have hplace : relative (base + .ofNat (p + 4)) (offsetTo (p + 4) parts.2.1) =
              base + .ofNat parts.2.1 := relative_offsetTo hlt hmeth.types.lt
          rwa [add_place] at hplace
        obtain ⟨ptr, hptr, hstring⟩ := hmeth.slot.there
        rw [hname, htypes, hptr, hmeth.types.there]
        show some (Method.mk ((bin.peekStringAt (decodePtr bin ptr)).getD []) _ _ _) = _
        rw [hstring, smallEntry, hmeth.imp]
        rfl
      · have hmethods := ih hrest
        rwa [add_place] at hmethods

lemma emits_methodList (list : MethodListSpec) :
    Emits final (emitMethodList form list) (At base (MethodsAt bin list.methods)) := by
  cases list with
  | big methods =>
      rw [emitMethodList]
      refine (emits_list hbin rfl (by decide) (emits_bigEntry hbin) methods).mono ?_
      rintro off ⟨records, hrecords, hlt, hoff⟩
      refine hoff.mono fun a ha => ⟨_, ha.1, ?_, ?_⟩
      · rw [MethodListSpec.methods, List.length_map]
        exact toNat_count hlt
      · rw [isSmall_big]
        show EntriesAt (Method.create bin false).value (Layout.size BigMethodT) (a + 8) _
        refine ha.2.of_records hrecords fun meth raw a hraw hload => ?_
        rw [Method.value_createBig hload, hraw.1, hraw.2.1, hraw.2.2]
        rfl
  | small methods =>
      rw [emitMethodList]
      refine (Emits.emitEach (emits_smallParts hbin) methods).bind fun parts => ?_
      refine (Emits.emitAligned 0 (by decide) _).mono ?_
      rintro off ⟨hpos, -, hblock⟩ hparts
      have hentries := prefix_behind hblock
      rw [Record.length_bytes] at hentries
      have hlt : methods.length < 2 ^ 31 := by
        have hlength := hentries.length_le
        rw [length_flatMap_bytes, length_smallEntries, ← hparts.length_eq] at hlength
        refine (Nat.le_mul_of_pos_right _ (by decide)).trans_lt
          ((hlength.trans ?_).trans_lt hbin.length_lt)
        exact List.length_drop.trans_le (Nat.sub_le _ _)
      refine .of_block hbin (List.append_ne_nil_of_left_ne_nil (bytes_ne_nil (by decide) _) _) hpos
        hblock ⟨_, hbin.load (by decide) ((List.prefix_append _ _).trans hblock), ?_, ?_⟩
      · rw [MethodListSpec.methods, List.length_map, ← hparts.length_eq]
        exact toNat_count hlt
      · have hmethods := small_entriesAt hbin hparts hentries
        rw [add_place] at hmethods
        rw [isSmall_small]
        exact hmethods

end

/-! ### What is made of a list -/

/-- The methods of a list, called on instances or not. -/
def MethodListSpec.called (isInstance : Bool) (list : MethodListSpec) : List Method :=
  list.methods.map (Method.withInstance isInstance)

/-- The loop of `Class::create` makes all methods of a list. -/
lemma methodsAt_eq {methods : List Method} {ptr : UInt64} (hptr : ptr ≠ 0)
    (h : MethodsAt bin methods (decodePtr bin ptr)) : Class.methodsAt bin ptr = methods := by
  obtain ⟨list, hload, hcount, hentries⟩ := h
  have hsize : Layout.size MethodListT = 8 := rfl
  rw [Class.methodsAt, if_neg hptr, hload]
  show Class.entriesOfList bin (decodePtr bin ptr + Layout.size MethodListT) list = methods
  rw [Class.entriesOfList, hcount, hsize, hentries.range, takeWhile_map_some,
    reduceOption_map_some]

/-- So do those of `Protocol::create`. -/
lemma methodsIn_eq {methods : List Method} {ptr : UInt64} (hptr : ptr ≠ 0)
    (h : MethodsAt bin methods (decodePtr bin ptr)) (isInstance : Bool) :
    methodsIn bin ptr isInstance = methods.map (Method.withInstance isInstance) := by
  obtain ⟨list, hload, hcount, hentries⟩ := h
  have hlist : methodListAt bin ptr = some list := by rw [methodListAt, if_neg hptr, hload]
  have hread := Protocol.value_readMethods hlist isInstance 0
  rw [BinaryStream.value, Protocol.readMethods_eq, entries_eq, hcount] at hread
  refine hread.trans ?_
  show ((List.range methods.length).map fun i => (Method.create bin list.isSmall).value
    (decodePtr bin ptr + 8 + .ofNat i * sizeofMeth list.isSmall)).reduceOption.map _ = _
  rw [hentries.range, reduceOption_map_some]

/-- At an address there is a list with a count and entries. -/
def CountedAt {α : Type} (bin : Binary) (create : BinaryStream (Option α)) (stride : UInt64)
    (xs : List α) (a : UInt64) : Prop :=
  ∃ list, bin.load CountedListT a = some list ∧ list.count.toNat = xs.length ∧
    EntriesAt create.value stride (a + 8) xs

/-- The blocks on instance variables and properties make all entries of a list. -/
lemma value_readCounted {α : Type} {create : BinaryStream (Option α)} {stride ptr : UInt64}
    {xs : List α} (hptr : ptr ≠ 0) (h : CountedAt bin create stride xs (decodePtr bin ptr))
    (p : UInt64) :
    (if ptr = 0 then return [] else BinaryStream.scopedStream (decodePtr bin ptr) do
      let some list ← BinaryStream.read CountedListT bin | return []
      let addr ← BinaryStream.pos
      BinaryStream.createEach create addr stride 0 list.count.toNat :
        BinaryStream (List α)).value p = xs := by
  obtain ⟨list, hload, hcount, hentries⟩ := h
  rw [if_neg hptr, BinaryStream.value, BinaryStream.scopedStream, BinaryStream.bind_apply,
    BinaryStream.read_of_some hload]
  refine (BinaryStream.value_createEach _ _ _ _ _ _).trans ?_
  have hsize : Layout.size CountedListT = 8 := rfl
  rw [← List.range_eq_range', hcount, hsize, hentries.range, reduceOption_map_some]

end ICDump
