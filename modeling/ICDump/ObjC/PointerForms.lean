/-
The forms in which pointers are stored (`Parser.cpp`, `MachOStream.cpp`).

A pointer into the image is stored as an offset `k` from its start, or as the address at which the
process has it.  `decode_ptr` adds the image base to what lies below it, and `read_at` moves what
lies above the base in memory to the image base.  Both decide by a comparison, and so the second
also moves addresses that the first has just computed, and leaves the base in memory itself alone.
-/
import ICDump.ObjC.Records

namespace ICDump

/-- The bits of a pointer that `decode_ptr` keeps. -/
def ptrMask : UInt64 := (1 : UInt64) <<< 51 - 1

namespace MachOStream

variable {bin : Binary}

/-- The segment of a virtual address, and the index of the address in it. -/
def place (bin : Binary) (a : UInt64) : Option (SegmentCommand × UInt64) :=
  (bin.segmentFromVirtualAddress a).map fun seg => (seg, a - seg.virtualAddress)

/-- The segment and the index that `read_at` finds for an address. -/
def locate (bin : Binary) (offset : UInt64) : Option (SegmentCommand × UInt64) :=
  place bin (rOffset bin offset)

/-- There is a segment at a virtual address. -/
def Mapped (bin : Binary) (a : UInt64) : Prop := (bin.segmentFromVirtualAddress a).isSome

/-- `read_at` returns the pointer to the index in the content of the segment. -/
lemma readAt_eq_locate (bin : Binary) (offset size : UInt64) :
    readAt bin offset size =
      match locate bin offset with
      | none => .error .readError
      | some (seg, index) => .ok ⟨seg.content, index⟩ := by
  rw [locate, place]
  cases hseg : bin.segmentFromVirtualAddress (rOffset bin offset) with
  | none => exact readAt_of_none hseg
  | some seg => exact readAt_of_some hseg

/-- Different virtual addresses have different places, if any. -/
lemma place_eq_iff {a b : UInt64} :
    place bin a = place bin b ↔ a = b ∨ ¬ Mapped bin a ∧ ¬ Mapped bin b := by
  by_cases hab : a = b
  · exact iff_of_true (congrArg _ hab) (Or.inl hab)
  · rw [place, place, Mapped, Mapped]
    cases bin.segmentFromVirtualAddress a with
    | none => cases bin.segmentFromVirtualAddress b <;> simp [hab]
    | some seg =>
        cases bin.segmentFromVirtualAddress b with
        | none => simp [hab]
        | some seg' =>
            -- one segment has one index for each address
            refine iff_of_false (fun h => ?_) (by simp [hab])
            obtain ⟨rfl, hindex⟩ := Prod.mk.inj (Option.some.inj h)
            exact hab ((UInt64.sub_left_inj _).1 hindex)

end MachOStream

/-! ### The two forms of a pointer -/

/-- `v` and `w` are stored for the offset `k` into the image: `v` holds `k` itself, and `w` the
address that the process has for it.  The upper bits of both are arbitrary. -/
structure StoredForms (bin : Binary) (k v w : UInt64) : Prop where
  imagebase_pos : 0 < bin.imagebase
  memoryBase_pos : 0 < bin.memoryBaseAddress
  imagebase_le : bin.imagebase ≤ bin.memoryBaseAddress
  offset_lt : k < bin.imagebase
  image_lt : bin.imagebase.toNat + k.toNat < 2 ^ 51
  memory_lt : bin.memoryBaseAddress.toNat + k.toNat < 2 ^ 51
  relative : v &&& ptrMask = k
  runTime : w &&& ptrMask = bin.memoryBaseAddress + k

namespace StoredForms

open MachOStream

variable {bin : Binary} {k v w : UInt64}

lemma decodePtr_relative (h : StoredForms bin k v w) : decodePtr bin v = bin.imagebase + k := by
  have hv : v &&& ((1 : UInt64) <<< 51 - 1) = k := h.relative
  rw [decodePtr, hv, if_pos ⟨h.imagebase_pos, h.offset_lt⟩, UInt64.add_comm]

lemma toNat_runTime (h : StoredForms bin k v w) :
    (bin.memoryBaseAddress + k).toNat = bin.memoryBaseAddress.toNat + k.toNat := by
  have hlt := h.memory_lt
  rw [UInt64.toNat_add]
  omega

lemma decodePtr_runTime (h : StoredForms bin k v w) :
    decodePtr bin w = bin.memoryBaseAddress + k := by
  have hw : w &&& ((1 : UInt64) <<< 51 - 1) = bin.memoryBaseAddress + k := h.runTime
  have hle := UInt64.le_iff_toNat_le.1 h.imagebase_le
  have hge : ¬ bin.memoryBaseAddress + k < bin.imagebase := by
    rw [UInt64.lt_iff_toNat_lt, h.toNat_runTime]
    omega
  rw [decodePtr, hw, if_neg fun hlt => hge hlt.2]

/-- The offset is moved once more if what it was decoded to lies above the base in memory. -/
lemma rOffset_relative (h : StoredForms bin k v w) :
    rOffset bin (decodePtr bin v) =
      if bin.memoryBaseAddress < bin.imagebase + k then
        bin.imagebase + k - bin.memoryBaseAddress + bin.imagebase
      else bin.imagebase + k := by
  rw [rOffset, h.decodePtr_relative]
  simp only [h.memoryBase_pos, true_and]

/-- The address is moved unless it is the base in memory. -/
lemma rOffset_runTime (h : StoredForms bin k v w) :
    rOffset bin (decodePtr bin w) =
      if 0 < k then bin.imagebase + k else bin.memoryBaseAddress := by
  have hmoved : bin.memoryBaseAddress < bin.memoryBaseAddress + k ↔ 0 < k := by
    rw [UInt64.lt_iff_toNat_lt, h.toNat_runTime, UInt64.lt_iff_toNat_lt]
    show _ ↔ 0 < k.toNat
    omega
  rw [rOffset, h.decodePtr_runTime]
  simp only [h.memoryBase_pos, true_and, hmoved]
  split
  · rw [UInt64.add_comm bin.memoryBaseAddress k, UInt64.add_sub_cancel, UInt64.add_comm]
  · rename_i hk
    rw [UInt64.le_zero_iff.1 (UInt64.not_lt.1 hk), UInt64.add_zero]

/-- The offset is resolved unless it is moved twice. -/
lemma locate_relative_iff (h : StoredForms bin k v w) :
    locate bin (decodePtr bin v) = place bin (bin.imagebase + k) ↔
      bin.memoryBaseAddress = bin.imagebase ∨ bin.imagebase + k ≤ bin.memoryBaseAddress ∨
        ¬ Mapped bin (bin.imagebase + k) ∧
          ¬ Mapped bin (bin.imagebase + k - bin.memoryBaseAddress + bin.imagebase) := by
  rw [locate, h.rOffset_relative]
  by_cases hmoved : bin.memoryBaseAddress < bin.imagebase + k
  · have hsame : bin.imagebase + k - bin.memoryBaseAddress + bin.imagebase = bin.imagebase + k ↔
        bin.memoryBaseAddress = bin.imagebase := by
      constructor
      · intro heq
        grind
      · intro heq
        rw [heq, UInt64.sub_add_cancel]
    rw [if_pos hmoved, place_eq_iff, hsame, or_iff_right (UInt64.not_le.2 hmoved), and_comm]
  · exact iff_of_true (by rw [if_neg hmoved]) (Or.inr (Or.inl (UInt64.not_lt.1 hmoved)))

/-- The address is resolved unless it is the base in memory. -/
lemma locate_runTime_iff (h : StoredForms bin k v w) :
    locate bin (decodePtr bin w) = place bin (bin.imagebase + k) ↔
      bin.memoryBaseAddress = bin.imagebase ∨ 0 < k ∨
        ¬ Mapped bin bin.imagebase ∧ ¬ Mapped bin bin.memoryBaseAddress := by
  rw [locate, h.rOffset_runTime]
  by_cases hk : 0 < k
  · exact iff_of_true (by rw [if_pos hk]) (Or.inr (Or.inl hk))
  · rw [if_neg hk, UInt64.le_zero_iff.1 (UInt64.not_lt.1 hk), UInt64.add_zero, place_eq_iff,
      or_iff_right (UInt64.lt_irrefl 0), and_comm]

/-- **Both forms of a pointer are resolved to the same place**, that of the offset from the image
base, exactly when the bases are the same, or the offset is not moved twice and the address is not
the base in memory.  Where no segment is, nothing is resolved either way. -/
theorem resolve_iff (h : StoredForms bin k v w) :
    locate bin (decodePtr bin v) = place bin (bin.imagebase + k) ∧
        locate bin (decodePtr bin w) = place bin (bin.imagebase + k) ↔
      bin.memoryBaseAddress = bin.imagebase ∨
        (bin.imagebase + k ≤ bin.memoryBaseAddress ∨ ¬ Mapped bin (bin.imagebase + k) ∧
          ¬ Mapped bin (bin.imagebase + k - bin.memoryBaseAddress + bin.imagebase)) ∧
        (0 < k ∨ ¬ Mapped bin bin.imagebase ∧ ¬ Mapped bin bin.memoryBaseAddress) := by
  rw [h.locate_relative_iff, h.locate_runTime_iff, ← or_and_left]

/-- An image at `0x4000`, of two pages, that the process has at `0x10000`. -/
def slidBinary : Binary where
  imagebase := 0x4000
  memoryBaseAddress := 0x10000
  getSection _ _ := none
  segmentFromVirtualAddress v :=
    if 0x4000 ≤ v ∧ v < 0x6000 then
      some
        { virtualAddress := 0x4000, virtualSize := 0x2000, fileSize := 0x2000
          content := ⟨fun _ => 0, 0x2000⟩ }
    else none
  peekStringAt _ := none
  hostWord _ := 0

lemma storedForms_slidBinary (k v w : UInt64) (hk : k < 0x2000) (hv : v &&& ptrMask = k)
    (hw : w &&& ptrMask = 0x10000 + k) : StoredForms slidBinary k v w where
  imagebase_pos := by decide
  memoryBase_pos := by decide
  imagebase_le := by decide
  offset_lt := UInt64.lt_trans hk (by decide)
  image_lt := by
    have hlt : k.toNat < 0x2000 := UInt64.lt_iff_toNat_lt.1 hk
    show 0x4000 + k.toNat < 2 ^ 51
    omega
  memory_lt := by
    have hlt : k.toNat < 0x2000 := UInt64.lt_iff_toNat_lt.1 hk
    show 0x10000 + k.toNat < 2 ^ 51
    omega
  relative := hv
  runTime := hw

/-- The byte at the offset 8 is found through both of its pointers, one of them with a tag. -/
theorem resolve_iff_eight :
    locate slidBinary (decodePtr slidBinary 0x8000000000000008) = place slidBinary 0x4008 ∧
      locate slidBinary (decodePtr slidBinary 0x10008) = place slidBinary 0x4008 := by
  have h := storedForms_slidBinary 8 0x8000000000000008 0x10008 (by decide) (by decide) (by decide)
  exact (resolve_iff h).2 (Or.inr ⟨Or.inl (by decide), Or.inl (by decide)⟩)

/-- The first byte of the image is not found through its address in the process. -/
theorem resolve_start :
    ¬ ∀ (bin : Binary) (k v w : UInt64) (seg : SegmentCommand), StoredForms bin k v w →
      bin.segmentFromVirtualAddress (bin.imagebase + k) = some seg →
        locate bin (decodePtr bin v) = some (seg, bin.imagebase + k - seg.virtualAddress) ∧
          locate bin (decodePtr bin w) = some (seg, bin.imagebase + k - seg.virtualAddress) := by
  intro hall
  have h := storedForms_slidBinary 0 0 0x10000 (by decide) (by decide) (by decide)
  have hnone : locate slidBinary (decodePtr slidBinary 0x10000) = none := by
    rw [locate, h.rOffset_runTime]
    rfl
  exact absurd (hnone.symm.trans (hall _ 0 0 0x10000 _ h rfl).2) (by simp)

end StoredForms

end ICDump
