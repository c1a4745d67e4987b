/-
The image that is parsed, and the bounds of `MachOStream::read_at`.

LIEF is not part of the repository.  What the code asks of it is collected in
`Binary`: two addresses, the sections by name, the segment that covers a virtual
address, and the string at an address.  The content of a segment is a pointer and
a length, so `Span` also says which bytes lie behind the pointer *past* the length:
reading them is what the bounds are about.
-/
import Mathlib.Data.UInt

namespace ICDump

/-- `LIEF::span<const uint8_t>`: `data i` is the byte `i` places behind the pointer. -/
structure Span where
  /-- The bytes behind the pointer. -/
  data : ℕ → UInt8
  /-- The number of bytes that belong to the span. -/
  size : ℕ

/-- `LIEF::MachO::SegmentCommand`. -/
structure SegmentCommand where
  virtualAddress : UInt64
  virtualSize : UInt64
  fileSize : UInt64
  content : Span

/-- What the code uses of `LIEF::MachO::Binary`, of the streams on it, and of the memory of
the process that runs the code. -/
structure Binary where
  imagebase : UInt64
  memoryBaseAddress : UInt64
  /-- `get_section`: the content of a section, by the names of its segment and its own. -/
  getSection : String → String → Option (List UInt8)
  segmentFromVirtualAddress : UInt64 → Option SegmentCommand
  /-- `peek_string_at`, the string that starts at an address. -/
  peekStringAt : UInt64 → Option (List Char)
  /-- The word at an address of the process itself, not of the image. -/
  hostWord : UInt64 → UInt64

/-- What LIEF guarantees: a segment that is found covers the address, and its content are the
bytes that it has in the file. -/
structure Binary.Lawful (bin : Binary) : Prop where
  covers : ∀ {v seg}, bin.segmentFromVirtualAddress v = some seg →
    seg.virtualAddress.toNat ≤ v.toNat ∧
      v.toNat < seg.virtualAddress.toNat + seg.virtualSize.toNat
  size_content : ∀ {v seg}, bin.segmentFromVirtualAddress v = some seg →
    seg.content.size = seg.fileSize.toNat

/-- `lief_errors`, as far as the stream returns them. -/
inductive LiefErrors
  | readError
deriving DecidableEq, Repr

/-- The pointer `content.data() + delta`. -/
structure ContentPtr where
  content : Span
  delta : UInt64

/-- The byte `i` places behind the pointer. -/
def ContentPtr.byte (p : ContentPtr) (i : ℕ) : UInt8 := p.content.data (p.delta.toNat + i)

/-- The `size` bytes behind the pointer belong to the content. -/
def ContentPtr.Holds (p : ContentPtr) (size : UInt64) : Prop :=
  p.delta.toNat + size.toNat ≤ p.content.size

namespace MachOStream

/-- The address that `read_at` looks up: an address above the memory base is moved to the
image base. -/
def rOffset (bin : Binary) (offset : UInt64) : UInt64 :=
  if 0 < bin.memoryBaseAddress ∧ bin.memoryBaseAddress < offset then
    offset - bin.memoryBaseAddress + bin.imagebase
  else offset

/-- `MachOStream::read_at`.  The size is not looked at. -/
def readAt (bin : Binary) (offset _size : UInt64) : Except LiefErrors ContentPtr :=
  match bin.segmentFromVirtualAddress (rOffset bin offset) with
  | none => .error .readError
  -- nothing is compared with the size of the content
  | some seg => .ok ⟨seg.content, rOffset bin offset - seg.virtualAddress⟩

/-- The request lies in the bytes that a segment has in the file. -/
def InFile (bin : Binary) (offset size : UInt64) : Prop :=
  ∃ seg, bin.segmentFromVirtualAddress (rOffset bin offset) = some seg ∧
    (rOffset bin offset).toNat + size.toNat ≤ seg.virtualAddress.toNat + seg.fileSize.toNat

variable {bin : Binary} {offset size : UInt64}

lemma readAt_of_none (h : bin.segmentFromVirtualAddress (rOffset bin offset) = none) :
    readAt bin offset size = .error .readError := by
  rw [readAt, h]

lemma readAt_of_some {seg : SegmentCommand}
    (h : bin.segmentFromVirtualAddress (rOffset bin offset) = some seg) :
    readAt bin offset size = .ok ⟨seg.content, rOffset bin offset - seg.virtualAddress⟩ := by
  rw [readAt, h]

/-- The pointer that is returned holds the request exactly when the file does. -/
lemma holds_iff (hbin : bin.Lawful) {seg : SegmentCommand}
    (h : bin.segmentFromVirtualAddress (rOffset bin offset) = some seg) :
    ContentPtr.Holds ⟨seg.content, rOffset bin offset - seg.virtualAddress⟩ size ↔
      (rOffset bin offset).toNat + size.toNat ≤
        seg.virtualAddress.toNat + seg.fileSize.toNat := by
  have hle := (hbin.covers h).1
  have hdelta : (rOffset bin offset - seg.virtualAddress).toNat =
      (rOffset bin offset).toNat - seg.virtualAddress.toNat :=
    UInt64.toNat_sub_of_le _ _ (UInt64.le_iff_toNat_le.2 hle)
  simp only [ContentPtr.Holds, hbin.size_content h, hdelta]
  omega

/-- **The bounds of a read.**  A read that succeeds stays inside the content of a segment, and
one that does not fit is refused, exactly when the segment of its address, if there is one,
has all of the request in the file. -/
theorem readAt_bounds (hbin : bin.Lawful) (offset size : UInt64) :
    ((∀ p, readAt bin offset size = .ok p → p.Holds size) ∧
        (¬ InFile bin offset size → readAt bin offset size = .error .readError)) ↔
      ∀ seg, bin.segmentFromVirtualAddress (rOffset bin offset) = some seg →
        (rOffset bin offset).toNat + size.toNat ≤
          seg.virtualAddress.toNat + seg.fileSize.toNat := by
  cases hseg : bin.segmentFromVirtualAddress (rOffset bin offset) with
  | none =>
      rw [readAt_of_none hseg]
      simp
  | some seg =>
      have hread : readAt bin offset size = _ := readAt_of_some hseg
      constructor
      · rintro ⟨hok, -⟩ seg' hseg'
        obtain rfl := Option.some.inj hseg'
        exact (holds_iff hbin hseg).1 (hok _ hread)
      · intro h
        refine ⟨fun p hp => ?_, fun hfile => absurd ⟨seg, hseg, h seg rfl⟩ hfile⟩
        rw [hread, Except.ok.injEq] at hp
        rw [← hp]
        exact (holds_iff hbin hseg).2 (h seg rfl)

/-- One segment of a page at `0x1000`, of which the file has the first four bytes only. -/
def truncatedSegment : SegmentCommand where
  virtualAddress := 0x1000
  virtualSize := 0x1000
  fileSize := 4
  content := ⟨fun _ => 0, 4⟩

/-- The image of `truncatedSegment`. -/
def truncatedBinary : Binary where
  imagebase := 0
  memoryBaseAddress := 0
  getSection _ _ := none
  segmentFromVirtualAddress v := if 0x1000 ≤ v ∧ v < 0x2000 then some truncatedSegment else none
  peekStringAt _ := none
  hostWord _ := 0

lemma truncatedBinary_lawful : truncatedBinary.Lawful where
  covers := by
    intro v seg h
    simp only [truncatedBinary, Option.ite_none_right_eq_some, Option.some.injEq] at h
    obtain ⟨⟨hle, hlt⟩, rfl⟩ := h
    exact ⟨UInt64.le_iff_toNat_le.1 hle, UInt64.lt_iff_toNat_lt.1 hlt⟩
  size_content := by
    intro v seg h
    simp only [truncatedBinary, Option.ite_none_right_eq_some, Option.some.injEq] at h
    rw [← h.2]
    rfl

/-- The two bytes at `0x1002` are read inside the file. -/
theorem readAt_bounds_two :
    readAt truncatedBinary 0x1002 2 = .ok ⟨truncatedSegment.content, 2⟩ ∧
      ContentPtr.Holds ⟨truncatedSegment.content, 2⟩ 2 := by
  refine ⟨rfl, ((readAt_bounds truncatedBinary_lawful 0x1002 2).2 ?_).1 _ rfl⟩
  intro seg hseg
  obtain rfl : truncatedSegment = seg := Option.some.inj hseg
  decide

/-- A pointer at `0x1002` is read although six of its bytes are not in the file. -/
theorem readAt_past_content :
    ¬ ∀ bin : Binary, bin.Lawful → ∀ offset size : UInt64,
      (∀ p, readAt bin offset size = .ok p → p.Holds size) ∧
        (¬ InFile bin offset size → readAt bin offset size = .error .readError) := by
  intro h
  have hread : readAt truncatedBinary 0x1002 8 = .ok ⟨truncatedSegment.content, 2⟩ := rfl
  have hholds := (h _ truncatedBinary_lawful 0x1002 8).1 _ hread
  exact absurd hholds (by unfold ContentPtr.Holds; decide)

end MachOStream

end ICDump
